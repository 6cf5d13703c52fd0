/-
The directories form one tree, and their link counts count its branches.

`Tree` says that every directory is found from the root, `Counted` that a directory
has two links and one for each directory in it.  An operation changes the tree only
where it edits a directory, so each case comes down to what the edited entries name.
-/
import BloomFS.Spec.Orderly

namespace BloomFS
namespace Spec

open Bytes Exec Dir Fs Store
open Relation (ReflTransGen TransGen)

variable {v v' : View} {handles : List Handle} {d id : Nat} {o o' : Outline}
  {out new : List DirEntry} {l : UInt32}

/-- Every directory is found from the root. -/
def Tree (v : View) : Prop := ∀ id, (v.node id).isDir → ReflTransGen v.Sub 0 id

/-- How many of the entries name directories. -/
def View.dirsIn (v : View) (l : List DirEntry) : Nat := l.countP fun e => (v.node e.inode).isDir

/-- A directory has two links and one for each directory in it. -/
def Counted (v : View) : Prop :=
  ∀ d, (v.node d).isDir → (v.node d).nlink.toNat = 2 + v.dirsIn (v.node d).entries

/-! ## Changes beside the directories -/

/-- The directories are the same, and so are their entries. -/
structure SameDirs (v v' : View) : Prop where
  isDir : ∀ i, (v'.node i).isDir ↔ (v.node i).isDir
  node : ∀ i, (v.node i).isDir → v'.node i = v.node i

theorem SameDirs.refl (v : View) : SameDirs v v := ⟨fun _ => Iff.rfl, fun _ _ => rfl⟩

theorem SameDirs.trans {v'' : View} (h : SameDirs v v') (h' : SameDirs v' v'') :
    SameDirs v v'' where
  isDir i := (h'.isDir i).trans (h.isDir i)
  node i hd := (h'.node i ((h.isDir i).mpr hd)).trans (h.node i hd)

theorem SameDirs.sub (h : SameDirs v v') {d c : Nat} : v'.Sub d c ↔ v.Sub d c := by
  unfold View.Sub
  rw [h.isDir, h.isDir]
  refine and_congr_right fun hd => ?_
  rw [h.node d hd]

theorem SameDirs.tree (h : SameDirs v v') (ht : Tree v) : Tree v' := fun id hid =>
  ReflTransGen.mono (fun _ _ => h.sub.mpr) _ _ (ht id ((h.isDir id).mp hid))

theorem SameDirs.dirsIn (h : SameDirs v v') (l : List DirEntry) : v'.dirsIn l = v.dirsIn l := by
  unfold View.dirsIn
  simp only [h.isDir]

theorem SameDirs.counted (h : SameDirs v v') (hc : Counted v) : Counted v' := by
  intro d hd
  have hd' := (h.isDir d).mp hd
  rw [h.node d hd', h.dirsIn]
  exact hc d hd'

theorem sameDirs_set (hf : ¬ (v.node d).isDir) (ho : ¬ o.isDir) : SameDirs v (v.set d o) where
  isDir := isDir_set (iff_of_false ho hf)
  node i hi := by
    have hne : i ≠ d := by
      rintro rfl
      exact hf hi
    exact View.node_set_of_ne hne

theorem sameDirs_reclaim (hf : ¬ (v.node id).isDir) : SameDirs v (v.reclaim id) :=
  ⟨(sameDirs_set hf not_isDir_blank).isDir, (sameDirs_set hf not_isDir_blank).node⟩

theorem sameDirs_drop (hf : ¬ (v.node id).isDir) : SameDirs v (v.drop id) := by
  unfold View.drop
  dsimp only
  split
  · exact sameDirs_reclaim hf
  · exact sameDirs_set hf hf

theorem sameDirs_close (hf : ¬ (v.node id).isDir) : SameDirs v (v.close id) := by
  unfold View.close
  dsimp only
  have hopens : SameDirs v { v with opens := Function.update v.opens id (pred32 (v.opens id)) } :=
    ⟨fun _ => Iff.rfl, fun _ _ => rfl⟩
  split
  · exact hopens.trans (sameDirs_reclaim hf)
  · exact hopens

theorem Replaced.sameDirs {dst : Nat} {dn : String} {old : List DirEntry} {v₁ : View}
    (hr : Replaced v dst dn id old v₁)
    (hspare : ∀ i, ⟨dn, i⟩ ∈ (v.node dst).entries → i ≠ id → ¬ (v.node i).isDir) :
        SameDirs v v₁ := by
  cases hr with
  | absent => exact .refl v
  | dropped hm hne hlt => exact sameDirs_drop (hspare _ hm hne)

/-! ## Editing a directory -/

theorem Edited.mem_of_notMem (he : Edited o out new l o') {e : DirEntry} (h : e ∈ new ++ o.entries)
    (hout : e ∉ out) : e ∈ o'.entries :=
  (List.mem_append.mp (he.perm.mem_iff.mpr h)).resolve_left hout

/-- An entry leads on as before, unless it was taken out. -/
theorem View.Sub.edit {a c : Nat} (h : v.Sub a c) (he : Edited (v.node d) out new l o')
    (hkeep : a = d → ∀ e ∈ out, e.inode = c → ∃ e' ∈ o'.entries, e'.inode = c) :
    (v.set d o').Sub a c := by
  obtain ⟨ha, hc, e, hmem, heq⟩ := h
  refine ⟨(isDir_set he.isDir a).mpr ha, (isDir_set he.isDir c).mpr hc, ?_⟩
  by_cases had : a = d
  · subst had
    rw [View.node_set_self]
    by_cases hout : e ∈ out
    · exact hkeep rfl e hout heq
    · exact ⟨e, he.mem_of_notMem (List.mem_append_right _ hmem) hout, heq⟩
  · rw [View.node_set_of_ne had]
    exact ⟨e, hmem, heq⟩

/-- The directories that lose their entry have another one. -/
theorem Tree.edit (ht : Tree v) (he : Edited (v.node d) out new l o')
    (hkeep : ∀ e ∈ out, (v.node e.inode).isDir → ∃ e' ∈ o'.entries, e'.inode = e.inode) :
    Tree (v.set d o') := by
  intro id hid
  refine ReflTransGen.mono (fun a c h => ?_) _ _ (ht id ((isDir_set he.isDir id).mp hid))
  refine h.edit he fun _ e hout heq => ?_
  subst heq
  exact hkeep e hout h.2.1

theorem dirsIn_set (he : Edited (v.node d) out new l o') (es : List DirEntry) :
    (v.set d o').dirsIn es = v.dirsIn es := by
  unfold View.dirsIn
  simp only [isDir_set he.isDir]

theorem dirsIn_append (v : View) (es es' : List DirEntry) :
    v.dirsIn (es ++ es') = v.dirsIn es + v.dirsIn es' := List.countP_append

theorem Counted.edit (hc : Counted v) (hd : (v.node d).isDir) (he : Edited (v.node d) out new l o')
    (hl : l.toNat + v.dirsIn out = (v.node d).nlink.toNat + v.dirsIn new) :
    Counted (v.set d o') := by
  intro i hi
  rw [dirsIn_set he]
  by_cases hid : i = d
  · subst hid
    have hperm : v.dirsIn (out ++ o'.entries) = v.dirsIn (new ++ (v.node i).entries) :=
      he.perm.countP_eq _
    rw [dirsIn_append, dirsIn_append] at hperm
    have hold := hc i hd
    rw [View.node_set_self, he.nlink]
    omega
  · rw [View.node_set_of_ne hid] at hi ⊢
    exact hc i hi

/-! ## New and removed directories -/

theorem Counted.born (hc : Counted v) {kind : UInt8} {data : Bytes} {g : Nat}
    (hf : ¬ (v.node id).isDir)
    (hnone : ∀ d, (v.node d).isDir → ∀ e ∈ (v.node d).entries, e.inode ≠ id) :
    Counted (v.set id (born kind data g)) := by
  intro d hd
  by_cases hid : d = id
  · subst hid
    rw [View.node_set_self] at hd ⊢
    have hlink : (Spec.born kind data g).nlink = 2 := if_pos hd
    rw [hlink]
    rfl
  · rw [View.node_set_of_ne hid] at hd ⊢
    have hsame : (v.set id (Spec.born kind data g)).dirsIn (v.node d).entries =
        v.dirsIn (v.node d).entries := by
      refine List.countP_congr fun e he => ?_
      rw [View.node_set_of_ne (hnone d hd e he)]
    rw [hsame]
    exact hc d hd

theorem Counted.forget (hc : Counted v)
    (hnone : ∀ d, (v.node d).isDir → ∀ e ∈ (v.node d).entries, e.inode ≠ id) :
    Counted (v.reclaim id) := by
  intro d hd
  have hid : d ≠ id := by
    rintro rfl
    rw [node_reclaim_self] at hd
    exact not_isDir_blank hd
  rw [node_reclaim_of_ne hid] at hd ⊢
  have hsame : (v.reclaim id).dirsIn (v.node d).entries = v.dirsIn (v.node d).entries := by
    refine List.countP_congr fun e he => ?_
    rw [node_reclaim_of_ne (hnone d hd e he)]
  rw [hsame]
  exact hc d hd

/-- A path does not go through a directory without entries. -/
theorem Tree.rmdir (ht : Tree v) {parent : Nat} (he : Edited (v.node parent) out new l o')
    (hout : ∀ e ∈ out, e.inode = id) (hempty : (v.node id).entries = []) :
    Tree ((v.set parent o').reclaim id) := by
  intro c hc
  have hne : c ≠ id := by
    rintro rfl
    rw [node_reclaim_self] at hc
    exact not_isDir_blank hc
  rw [node_reclaim_of_ne hne, isDir_set he.isDir] at hc
  have hpath := ht c hc
  clear hc
  induction hpath with
  | refl => exact .refl
  | @tail b c _ hsub ih =>
    have hb : b ≠ id := by
      rintro rfl
      obtain ⟨-, -, e, hmem, -⟩ := hsub
      rw [hempty] at hmem
      cases hmem
    have hsub' : (v.set parent o').Sub b c := hsub.edit he fun _ e hmem heq =>
      absurd (heq.symm.trans (hout e hmem)) hne
    refine (ih hb).tail ?_
    unfold View.Sub at hsub' ⊢
    rwa [node_reclaim_of_ne hb, node_reclaim_of_ne hne]

/-- Moving a directory `id` from `src` to `dst`, which is not below it. -/
theorem Tree.move (ht : Tree v) {src dst : Nat} {s' d' : Outline} {old : List DirEntry}
    {sn dn : String}
    {l' : UInt32} (hne : src ≠ dst) (hdd : (v.node dst).isDir) (hid : (v.node id).isDir)
    (hloop : ¬ ReflTransGen v.Sub id dst) (hed : Edited (v.node dst) old [⟨dn, id⟩] l d')
    (hes : Edited (v.node src) [⟨sn, id⟩] [] l' s') (hold : ∀ e ∈ old, ¬ (v.node e.inode).isDir) :
    Tree ((v.set dst d').set src s') := by
  have hsrc : (v.set dst d').node src = v.node src := View.node_set_of_ne hne
  rw [← hsrc] at hes
  have hkind : ∀ i, (((v.set dst d').set src s').node i).isDir ↔ (v.node i).isDir := by
    intro i
    rw [isDir_set hes.isDir, isDir_set hed.isDir]
  -- every edge stays, but the one into the moved directory
  have hedge : ∀ a c, v.Sub a c → c ≠ id → ((v.set dst d').set src s').Sub a c := by
    intro a c h hc
    have h₁ : (v.set dst d').Sub a c := h.edit hed fun _ e hmem heq =>
      absurd h.2.1 (heq ▸ hold e hmem)
    refine h₁.edit hes fun _ e hmem heq => ?_
    rw [List.mem_singleton.mp hmem] at heq
    exact absurd heq.symm hc
  -- what is not below the moved directory is found as before
  have habove : ∀ c, ReflTransGen v.Sub 0 c → ¬ ReflTransGen v.Sub id c →
      ReflTransGen ((v.set dst d').set src s').Sub 0 c := by
    intro c hpath
    induction hpath with
    | refl => exact fun _ => .refl
    | @tail b c _ hsub ih =>
      intro hno
      refine (ih fun hb => hno (hb.tail hsub)).tail (hedge b c hsub ?_)
      rintro rfl
      exact hno .refl
  have hmoved : ReflTransGen ((v.set dst d').set src s').Sub 0 id := by
    refine (habove dst (ht dst hdd) hloop).tail ⟨(hkind dst).mpr hdd, (hkind id).mpr hid,
      ⟨dn, id⟩, ?_, rfl⟩
    rw [View.node_set_of_ne (Ne.symm hne), View.node_set_self]
    refine hed.mem_of_notMem (List.mem_append_left _ List.mem_cons_self) fun hmem => ?_
    exact hold _ hmem hid
  intro c hc
  by_cases hbelow : ReflTransGen v.Sub id c
  · clear hc
    induction hbelow with
    | refl => exact hmoved
    | @tail b c _ hsub ih =>
      by_cases hcid : c = id
      · subst hcid
        exact hmoved
      · exact ih.tail (hedge b c hsub hcid)
  · exact habove c (ht c ((hkind c).mp hc)) hbelow

/-- A new inode with its entry. -/
theorem Tree.create (ht : Tree v) {parent : Nat} {name : String} {kind : UInt8}
    {data : Bytes} {g : Nat} (hf : ¬ (v.node id).isDir) (hp : (v.node parent).isDir)
    (he : Edited (v.node parent) [] [⟨name, id⟩] l o') :
    Tree ((v.set id (Spec.born kind data g)).set parent o') := by
  have hne : ∀ i, (v.node i).isDir → i ≠ id := by
    rintro i hi rfl
    exact hf hi
  have hparent : (v.set id (Spec.born kind data g)).node parent = v.node parent :=
    View.node_set_of_ne (hne parent hp)
  rw [← hparent] at he
  have hold : ∀ c, (v.node c).isDir →
      ReflTransGen ((v.set id (Spec.born kind data g)).set parent o').Sub 0 c := by
    intro c hc
    refine ReflTransGen.mono (fun a c h => ?_) _ _ (ht c hc)
    have h₁ : (v.set id (Spec.born kind data g)).Sub a c := by
      unfold View.Sub
      rw [View.node_set_of_ne (hne a h.1), View.node_set_of_ne (hne c h.2.1)]
      exact h
    exact h₁.edit he fun _ _ hmem _ => absurd hmem List.not_mem_nil
  intro c hc
  by_cases hid : c = id
  · subst hid
    refine (hold parent hp).tail ⟨?_, hc, ⟨name, c⟩, ?_, rfl⟩
    · rw [View.node_set_self]
      exact he.isDir.mpr (hparent ▸ hp)
    · rw [View.node_set_self]
      exact he.mem_of_notMem (List.mem_append_left _ List.mem_cons_self) List.not_mem_nil
  · rw [isDir_set he.isDir, View.node_set_of_ne hid] at hc
    exact hold c hc

/-! ## Operations -/

section Operations

variable {gone : Nat → Nat}

theorem Slots.unnamed (hs : Slots v handles) (h : v.names id = 0) (d : Nat) (hd : (v.node d).isDir)
    (e : DirEntry) (he : e ∈ (v.node d).entries) : e.inode ≠ id := by
  intro heq
  have hpos : 0 < v.names id :=
    View.names_pos.mpr ⟨d, (hs.used_of_dir hd).lt hs, Outline.naming_pos.mpr ⟨hd, e, he, heq⟩⟩
  omega

theorem Replaced.notMem {dst : Nat} {dn : String} {old : List DirEntry} {v₁ : View}
    (hr : Replaced v dst dn id old v₁) (hn : Linked v gone) (hq : dst < v.cap)
    (hdd : (v.node dst).isDir) : ⟨dn, id⟩ ∉ (v.node dst).entries := by
  intro hmem
  cases hr with
  | absent h => exact h _ hmem rfl
  | dropped hm hne hlt => exact hne (hn.eq_of_mem hq hdd hmem hm)

theorem Replaced.subset {dst : Nat} {dn : String} {old : List DirEntry} {v₁ : View}
    (hr : Replaced v dst dn id old v₁) {e : DirEntry} (he : e ∈ old) :
    ∃ i, e = ⟨dn, i⟩ ∧ i ≠ id ∧ ⟨dn, i⟩ ∈ (v.node dst).entries := by
  cases hr with
  | absent => cases he
  | @dropped i hm hne hlt => exact ⟨i, List.mem_singleton.mp he, hne, hm⟩

/-- The namespace stays one tree, unless a rename replaces a directory. -/
theorem Change.tree {op : Op} {r : Reply} (hc : Change handles v op r v') (hs : Slots v handles)
    (hn : Linked v gone) (ht : Tree v) (hsp : Spares v op) : Tree v' := by
  cases hc with
  | quiet => exact ht
  | @write _ id f h hid hk =>
    have hf := isDir_of_regular hk
    exact (sameDirs_set (o := { v.node id with data := f (v.node id).data }) hf hf).tree ht
  | create h hmade =>
    cases hmade with
    | @mk v₁ nlink o' hp hd ha hid hl hsucc habs he =>
      have hnode : v₁.node = v.node := (View.alloc_same ha).1
      have hf : ¬ (v₁.node _).isDir := hnode ▸ hs.unused _ (not_used_of_alloc ha)
      have ht₁ : Tree v₁ := by
        have hsame : SameDirs v v₁ := ⟨fun _ => by rw [hnode], fun _ _ => by rw [hnode]⟩
        exact hsame.tree ht
      rw [← hnode] at he hd
      exact ht₁.create hf hd he
  | @unlink parent id name o' hp hd hm hid hf he =>
    refine (sameDirs_drop ((isDir_set he.isDir id).not.mpr hf)).tree
      (ht.edit he fun e hmem hdir => ?_)
    rw [List.mem_singleton.mp hmem] at hdir
    exact absurd hdir hf
  | rmdir hp hd hm hid hcd hempty he =>
    refine ht.rmdir he (fun e hmem => ?_) hempty
    rw [List.mem_singleton.mp hmem]
  | @link parent target name o' hp hd htg hf hsucc habs he =>
    have hsame : SameDirs v (v.set target { v.node target with nlink := (v.node target).nlink +
        1 }) :=
      sameDirs_set hf hf
    rw [← hsame.node parent hd] at he
    exact (hsame.tree ht).edit he fun _ hmem => absurd hmem List.not_mem_nil
  | stay => exact ht
  | @within src id sn dn old v₁ o' hp hd hm hr he =>
    have hothers := hsp.others hn hp hd hp hd hm
    have hsame := hr.sameDirs hothers
    rw [← hsame.node src hd] at he
    refine (hsame.tree ht).edit he fun e hmem hdir => ?_
    rcases List.mem_cons.mp hmem with rfl | hmem
    · refine ⟨⟨dn, id⟩, he.mem_of_notMem (List.mem_append_left _ List.mem_cons_self) fun hmem => ?_,
        rfl⟩
      refine hr.notMem hn hp hd ?_
      rcases List.mem_cons.mp hmem with heq | hmem
      · exact heq ▸ hm
      · obtain ⟨i, heq, -, hmem⟩ := hr.subset hmem
        exact heq ▸ hmem
    · obtain ⟨i, rfl, hne, hmem⟩ := hr.subset hmem
      exact absurd ((hsame.isDir i).mp hdir) (hothers i hmem hne)
  | @across src dst id sn dn old v₁ s' d' hne hp hsd hq hdd hm hloop hr hed hes =>
    have hothers := hsp.others hn hp hsd hq hdd hm
    have hsame := hr.sameDirs hothers
    have hold : ∀ e ∈ old, ¬ (v₁.node e.inode).isDir := by
      intro e he hdir
      obtain ⟨i, rfl, hi, hmem⟩ := hr.subset he
      exact hothers i hmem hi ((hsame.isDir i).mp hdir)
    rw [← hsame.node src hsd] at hes
    rw [← hsame.node dst hdd] at hed
    by_cases hid : (v.node id).isDir
    · refine (hsame.tree ht).move hne ((hsame.isDir dst).mpr hdd)
        ((hsame.isDir id).mpr hid) ?_ hed hes hold
      exact fun hpath => hloop hid (ReflTransGen.mono (fun _ _ => hsame.sub.mp) _ _ hpath)
    · have hsrc : (v₁.set dst d').node src = v₁.node src := View.node_set_of_ne hne
      rw [← hsrc] at hes
      refine ((hsame.tree ht).edit hed fun e he hdir => absurd hdir (hold e he)).edit hes
        fun e he hdir => ?_
      rw [List.mem_singleton.mp he, isDir_set hed.isDir, hsame.isDir] at hdir
      exact absurd hdir hid
  | openFile => exact SameDirs.tree ⟨fun _ => Iff.rfl, fun _ _ => rfl⟩ ht
  | @close i h hh ho => exact (sameDirs_close (hs.opened _ (opens_of_handle hs hh ho)).2).tree ht

/-- A rename moves no directory to another one. -/
def Local (v : View) : Op → Prop
  | .rename src sn dst _ => src ≠ dst → src < v.cap → (v.node src).isDir →
      ∀ id, ⟨sn, id⟩ ∈ (v.node src).entries → ¬ (v.node id).isDir
  | _ => True

theorem dirsIn_singleton (v : View) (name : String) (id : Nat) :
    v.dirsIn [⟨name, id⟩] = if (v.node id).isDir then 1 else 0 := by
  unfold View.dirsIn
  rw [List.countP_singleton]
  simp

theorem dirsIn_eq_zero {es : List DirEntry} (h : ∀ e ∈ es, ¬ (v.node e.inode).isDir) :
    v.dirsIn es = 0 :=
  List.countP_eq_zero.mpr fun e he => by simpa using h e he

/-- The links of the directories are counted right, unless a rename replaces a
directory or moves one to another. -/
theorem Change.counted {op : Op} {r : Reply} (hc : Change handles v op r v') (hs : Slots v handles)
    (hn : Linked v gone) (hcount : Counted v) (hsp : Spares v op) (hloc : Local v op) :
    Counted v' := by
  cases hc with
  | quiet => exact hcount
  | @write _ id f h hid hk =>
    have hf := isDir_of_regular hk
    exact (sameDirs_set (o := { v.node id with data := f (v.node id).data }) hf hf).counted hcount
  | @create _ parent id name kind data _ h hmade =>
    cases hmade with
    | @mk v₁ nlink o' hp hd ha hid hl hsucc habs he =>
      have hunused := not_used_of_alloc ha
      have hnode : v₁.node = v.node := (View.alloc_same ha).1
      have hf : ¬ (v₁.node id).isDir := hnode ▸ hs.unused _ hunused
      have hsame : SameDirs v v₁ := ⟨fun _ => by rw [hnode], fun _ _ => by rw [hnode]⟩
      have hnone : v.names id = 0 := by
        by_contra hpos
        exact hunused (hn.named id (by omega))
      have hborn : Counted (v₁.set id (born kind data (v.node id).generation)) := by
        refine (hsame.counted hcount).born hf ?_
        rw [hnode]
        exact hs.unnamed hnone
      have hne : parent ≠ id := by
        rintro rfl
        exact hf (hnode ▸ hd)
      have hparent : (v₁.set id (born kind data (v.node id).generation)).node parent =
          v.node parent := by
        rw [View.node_set_of_ne hne, hnode]
      rw [← hparent] at he hd hl hsucc
      refine hborn.edit hd he ?_
      have hdirs : (v₁.set id (born kind data (v.node id).generation)).dirsIn [⟨name, id⟩] =
          if kind = Inode.typeDir then 1 else 0 := by
        rw [dirsIn_singleton, View.node_set_self]
        rfl
      rw [hdirs, hl]
      split
      · next hkind =>
        have := hsucc hkind
        rw [UInt32.toNat_add, Nat.mod_eq_of_lt (by simpa using this)]
        rfl
      · rfl
  | @unlink parent id name o' hp hd hm hid hf he =>
    refine (sameDirs_drop ((isDir_set he.isDir id).not.mpr hf)).counted (hcount.edit hd he ?_)
    rw [dirsIn_singleton, if_neg hf]
    rfl
  | @rmdir parent id name o' hp hd hm hid hcd hempty he =>
    have hnone : (v.set parent o').names id = 0 := by
      have hn' : Linked (v.set parent o') (fun i => gone i + one id i) :=
        hn.edit hp hd he rfl (fun i => by rw [tally_singleton]; rfl)
      have := hn'.dirs id ((isDir_set he.isDir id).mpr hcd)
      rw [one_self] at this
      omega
    refine (hcount.edit hd he ?_).forget ((hs.set he.isDir).unnamed hnone)
    have hlinks := hcount parent hd
    have hone : 0 < v.dirsIn (v.node parent).entries :=
      List.countP_pos_iff.mpr ⟨_, hm, by simpa using hcd⟩
    have hnil : v.dirsIn [] = 0 := rfl
    rw [dirsIn_singleton, if_pos hcd, toNat_pred32]
    omega
  | @link parent target name o' hp hd htg hf hsucc habs he =>
    have hsame : SameDirs v (v.set target { v.node target with nlink := (v.node target).nlink +
        1 }) :=
      sameDirs_set hf hf
    rw [← hsame.node parent hd] at he
    refine (hsame.counted hcount).edit ((hsame.isDir parent).mpr hd) he ?_
    rw [dirsIn_singleton, if_neg ((hsame.isDir target).not.mpr hf), hsame.node parent hd]
    rfl
  | stay => exact hcount
  | @within src id sn dn old v₁ o' hp hd hm hr he =>
    have hothers := hsp.others hn hp hd hp hd hm
    have hsame := hr.sameDirs hothers
    have hold : v₁.dirsIn old = 0 := by
      refine dirsIn_eq_zero fun e he hdir => ?_
      obtain ⟨i, rfl, hi, hmem⟩ := hr.subset he
      exact hothers i hmem hi ((hsame.isDir i).mp hdir)
    rw [← hsame.node src hd] at he
    refine (hsame.counted hcount).edit ((hsame.isDir src).mpr hd) he ?_
    have hout : v₁.dirsIn (⟨sn, id⟩ :: old) = v₁.dirsIn [⟨sn, id⟩] + v₁.dirsIn old :=
      dirsIn_append v₁ [⟨sn, id⟩] old
    rw [hout, hold, dirsIn_singleton, dirsIn_singleton]
    rfl
  | @across src dst id sn dn old v₁ s' d' hne hp hsd hq hdd hm hloop hr hed hes =>
    have hothers := hsp.others hn hp hsd hq hdd hm
    have hsame := hr.sameDirs hothers
    have hid : ¬ (v₁.node id).isDir := (hsame.isDir id).not.mpr (hloc hne hp hsd id hm)
    have hold : v₁.dirsIn old = 0 := by
      refine dirsIn_eq_zero fun e he hdir => ?_
      obtain ⟨i, rfl, hi, hmem⟩ := hr.subset he
      exact hothers i hmem hi ((hsame.isDir i).mp hdir)
    rw [← hsame.node src hsd] at hes
    rw [← hsame.node dst hdd] at hed
    have hsrc : (v₁.set dst d').node src = v₁.node src := View.node_set_of_ne hne
    have hcount' : Counted (v₁.set dst d') := by
      refine (hsame.counted hcount).edit ((hsame.isDir dst).mpr hdd) hed ?_
      rw [hold, dirsIn_singleton, if_neg hid]
    rw [← hsrc] at hes
    refine hcount'.edit ((isDir_set hed.isDir src).mpr ((hsame.isDir src).mpr hsd)) hes ?_
    rw [dirsIn_singleton, if_neg ((isDir_set hed.isDir id).not.mpr hid)]
    rfl
  | openFile => exact SameDirs.counted ⟨fun _ => Iff.rfl, fun _ _ => rfl⟩ hcount
  | @close i h hh ho =>
    exact (sameDirs_close (hs.opened _ (opens_of_handle hs hh ho)).2).counted hcount

/-- Only `rmdir` takes a directory away, unless a rename replaces one. -/
theorem Change.isDir_of_isDir {op : Op} {r : Reply} (hc : Change handles v op r v')
    (hs : Slots v handles) (hn : Linked v gone) (hsp : Spares v op)
    (hop : ∀ parent name, op ≠ .rmdir parent name) (hd : (v.node id).isDir) :
        (v'.node id).isDir := by
  cases hc with
  | quiet => exact hd
  | @write _ i f h hid hk =>
    have hf := isDir_of_regular hk
    have hsame : SameDirs v (v.set i { v.node i with data := f (v.node i).data }) :=
      sameDirs_set hf hf
    exact (hsame.isDir id).mpr hd
  | @create _ parent new name kind data _ h hmade =>
    cases hmade with
    | @mk v₁ nlink o' hp hpd ha hid hl hsucc habs he =>
      have hnode : v₁.node = v.node := (View.alloc_same ha).1
      have hnew : ∀ i, (v.node i).isDir →
          (v₁.set new (born kind data (v.node new).generation)).node i = v.node i := by
        intro i hi
        refine (View.node_set_of_ne ?_).trans (by rw [hnode])
        rintro rfl
        exact hs.unused _ (not_used_of_alloc ha) hi
      rw [← hnew parent hpd] at he
      refine (isDir_set he.isDir id).mpr ?_
      rw [hnew id hd]
      exact hd
  | @unlink parent i name o' hp hpd hm hid hf he =>
    refine ((sameDirs_drop ((isDir_set he.isDir i).not.mpr hf)).isDir id).mpr ?_
    exact (isDir_set he.isDir id).mpr hd
  | rmdir => exact absurd rfl (hop _ _)
  | @link parent target name o' hp hpd htg hf hsucc habs he =>
    have hsame : SameDirs v (v.set target { v.node target with nlink := (v.node target).nlink +
        1 }) :=
      sameDirs_set hf hf
    rw [← hsame.node parent hpd] at he
    exact (isDir_set he.isDir id).mpr ((hsame.isDir id).mpr hd)
  | stay => exact hd
  | @within src i sn dn old v₁ o' hp hsd hm hr he =>
    have hsame := hr.sameDirs (hsp.others hn hp hsd hp hsd hm)
    rw [← hsame.node src hsd] at he
    exact (isDir_set he.isDir id).mpr ((hsame.isDir id).mpr hd)
  | @across src dst i sn dn old v₁ s' d' hne hp hsd hq hdd hm hloop hr hed hes =>
    have hsame := hr.sameDirs (hsp.others hn hp hsd hq hdd hm)
    have hsrc : (v₁.set dst d').node src = v.node src :=
      (View.node_set_of_ne hne).trans (hsame.node src hsd)
    rw [← hsame.node dst hdd] at hed
    rw [← hsrc] at hes
    exact (isDir_set hes.isDir id).mpr ((isDir_set hed.isDir id).mpr ((hsame.isDir id).mpr hd))
  | openFile => exact hd
  | @close i h hh ho =>
    exact ((sameDirs_close (hs.opened _ (opens_of_handle hs hh ho)).2).isDir id).mpr hd

/-! ## The tree as an invariant -/

/-- The links are in order, none is lost, and every directory is found from the
root. -/
structure Arranged (v : View) (handles : List Handle) : Prop where
  slots : Slots v handles
  linked : Linked v (fun _ => 0)
  tree : Tree v

theorem Arranged.ready {t : State} (h : Arranged t.view handles) : Ready t handles :=
  ready_of h.slots h.linked

theorem Arranged.step {op : Op} {r : Reply} (h : Arranged v handles) (hf : Fair v op)
    (hsp : Spares v op) (hc : Change handles v op r v') :
    Arranged v' (handlesAfter op true handles) := by
  obtain ⟨hs', gone', hn', hsame⟩ := hc.orderly h.slots h.linked hf
  exact ⟨hs', hsame hsp ▸ hn', hc.tree h.slots h.linked h.tree hsp⟩

theorem Arranged.parent_unique (h : Arranged v handles) {p q c : Nat} (hp : v.Sub p c)
    (hq : v.Sub q c) : p = q := by
  by_contra hne
  have hpc : 0 < (v.node p).naming c := Outline.naming_pos.mpr ⟨hp.1, hp.2.2⟩
  have hqc : 0 < (v.node q).naming c := Outline.naming_pos.mpr ⟨hq.1, hq.2.2⟩
  have hplt := (h.slots.used_of_dir hp.1).lt h.slots
  have hqlt := (h.slots.used_of_dir hq.1).lt h.slots
  have hle : (v.node q).naming c ≤ v.namesBeside p c :=
    Finset.single_le_sum (f := fun i => (v.node i).naming c) (fun _ _ => Nat.zero_le _)
      (Finset.mem_erase.mpr ⟨Ne.symm hne, Finset.mem_range.mpr hqlt⟩)
  have hnames : v.names c = (v.node p).naming c + v.namesBeside p c := View.names_eq hplt
  have hone := h.linked.dirs c hp.2.1
  omega

theorem Arranged.root_unnamed (h : Arranged v handles) (d : Nat) : ¬ v.Sub d 0 := by
  intro hd
  have hpos : 0 < (v.node d).naming 0 := Outline.naming_pos.mpr ⟨hd.1, hd.2.2⟩
  have hlt := (h.slots.used_of_dir hd.1).lt h.slots
  have hle : (v.node d).naming 0 ≤ v.names 0 := View.naming_le_names hlt
  have := h.linked.root
  omega

theorem Arranged.acyclic (h : Arranged v handles) (d : Nat) : ¬ TransGen v.Sub d d := by
  intro hd
  have hdir : (v.node d).isDir := by
    obtain ⟨_, hsub, -⟩ := TransGen.head'_iff.mp hd
    exact hsub.1
  -- a directory on a cycle has its parent on the cycle, up to the root
  have hcycle : ∀ c, ReflTransGen v.Sub 0 c → ¬ TransGen v.Sub c c := by
    intro c hpath
    induction hpath with
    | refl =>
      intro hloop
      obtain ⟨b, -, hb⟩ := TransGen.tail'_iff.mp hloop
      exact h.root_unnamed b hb
    | @tail a c _ hac ih =>
      intro hloop
      obtain ⟨b, hpath, hbc⟩ := TransGen.tail'_iff.mp hloop
      obtain rfl := h.parent_unique hac hbc
      exact ih (TransGen.head'_iff.mpr ⟨c, hac, hpath⟩)
  exact hcycle d (h.tree d hdir) hd

end Operations

end Spec
end BloomFS
