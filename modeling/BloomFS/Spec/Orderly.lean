/-
The free list, the open counts and the link counts agree with the namespace.

`Slots` is about the free list and the handles, `Linked` about the entries.  An
operation goes through states where a name is gone and its link is not dropped
yet, or a link is there and its name is not, and `gone` counts those links.  Both
hold between operations, with nothing gone, as long as nobody links or opens an id
that is not handed out.
-/
import BloomFS.Spec.Change

namespace BloomFS
namespace Spec

open Bytes Exec Dir Fs Store
open Dir.Segment (Distinct)

/-- How many of the entries name `id`. -/
def tally (l : List DirEntry) (id : Nat) : Nat := l.countP (·.inode = id)

@[simp] theorem tally_nil (id : Nat) : tally [] id = 0 := rfl

theorem tally_cons (e : DirEntry) (l : List DirEntry) (id : Nat) :
    tally (e :: l) id = tally l id + if e.inode = id then 1 else 0 := by
  unfold tally
  rw [List.countP_cons]
  simp

/-- How many open handles the caller has on `id`. -/
def holding (handles : List Handle) (id : Nat) : Nat :=
  handles.countP fun h => h.id = id ∧ ¬ h.closed

structure Slots (v : View) (handles : List Handle) : Prop where
  nodup : v.free.Nodup
  free_lt : ∀ id ∈ v.free, id < v.next
  next_le : v.next ≤ v.cap
  cap_lt : v.cap < 2 ^ 64
  unused : ∀ id, ¬ v.Used id → ¬ (v.node id).isDir
  opened : ∀ id, v.opens id ≠ 0 → v.Used id ∧ ¬ (v.node id).isDir
  held : ∀ id, (v.opens id).toNat = holding handles id
  handle_lt : ∀ h ∈ handles, h.id < v.cap
  root : v.Used 0 ∧ (v.node 0).isDir

structure Linked (v : View) (gone : Nat → Nat) : Prop where
  paged : ∀ d, d < v.cap → (v.node d).isDir → Paged (v.node d).pages
  named : ∀ id, 0 < v.names id + gone id → v.Used id
  files : ∀ id, ¬ (v.node id).isDir → (v.node id).nlink.toNat = v.names id + gone id
  dirs : ∀ id, (v.node id).isDir → v.names id + gone id ≤ 1
  self : ∀ id, (v.node id).naming id = 0
  root : v.names 0 + gone 0 = 0
  kept : ∀ id, v.Used id → ¬ (v.node id).isDir → (v.node id).nlink = 0 → v.opens id ≠ 0

variable {v v' : View} {handles : List Handle} {gone gone' : Nat → Nat} {d id : Nat}
    {o o' : Outline}

/-! ## Single updates -/

theorem View.Used.lt (h : v.Used id) (hs : Slots v handles) : id < v.cap :=
  Nat.lt_of_lt_of_le h.1 hs.next_le

theorem Slots.used_of_dir (hs : Slots v handles) (h : (v.node id).isDir) : v.Used id := by
  by_contra hno
  exact hs.unused id hno h

@[simp] theorem View.used_set : (v.set d o).Used id ↔ v.Used id := Iff.rfl

theorem isDir_set (h : o.isDir ↔ (v.node d).isDir) (id : Nat) :
    ((v.set d o).node id).isDir ↔ (v.node id).isDir := by
  by_cases hid : id = d
  · subst hid
    rw [View.node_set_self]
    exact h
  · rw [View.node_set_of_ne hid]

theorem Slots.set (hs : Slots v handles) (h : o.isDir ↔ (v.node d).isDir) :
    Slots (v.set d o) handles where
  nodup := hs.nodup
  free_lt := hs.free_lt
  next_le := hs.next_le
  cap_lt := hs.cap_lt
  unused i hi := by
    rw [isDir_set h]
    exact hs.unused i hi
  opened i hi := by
    rw [isDir_set h]
    exact hs.opened i hi
  held := hs.held
  handle_lt := hs.handle_lt
  root := by
    rw [isDir_set h]
    exact hs.root

theorem Edited.naming {out new : List DirEntry} {l : UInt32} (he : Edited o out new l o')
    (hd : o.isDir) (id : Nat) : o'.naming id + tally out id = o.naming id + tally new id := by
  have hcount := he.perm.countP_eq (·.inode = id)
  rw [List.countP_append, List.countP_append] at hcount
  rw [Outline.naming_of_dir hd, Outline.naming_of_dir (he.isDir.mpr hd)]
  unfold tally
  omega

theorem node_set_file (hf : ¬ ((v.set d o).node id).isDir) (hd : o.isDir) :
    (v.set d o).node id = v.node id := by
  refine View.node_set_of_ne ?_
  rintro rfl
  rw [View.node_set_self] at hf
  exact hf hd

theorem Linked.edit (hn : Linked v gone) {out new : List DirEntry} {l : UInt32} (hd : d < v.cap)
    (hdir : (v.node d).isDir) (he : Edited (v.node d) out new l o') (hself : tally new d = 0)
    (hgone : ∀ i, gone' i + tally new i = gone i + tally out i) : Linked (v.set d o') gone' := by
  have hdir' := he.isDir.mpr hdir
  have hkind := isDir_set (v := v) he.isDir
  have hnames : ∀ i, (v.set d o').names i + gone' i = v.names i + gone i := by
    intro i
    have h₁ : (v.set d o').names i + (v.node d).naming i = v.names i + o'.naming i :=
      View.names_set hd
    have h₂ := he.naming hdir i
    have h₃ := hgone i
    omega
  refine ⟨?_, ?_, ?_, ?_, ?_, ?_, ?_⟩
  · intro i hi hdi
    by_cases hid : i = d
    · subst hid
      rw [View.node_set_self]
      exact he.paged
    · rw [View.node_set_of_ne hid] at hdi ⊢
      exact hn.paged i hi hdi
  · intro i hi
    rw [hnames] at hi
    exact hn.named i hi
  · intro i hf
    rw [hnames, node_set_file hf hdir']
    exact hn.files i (fun h => hf ((hkind i).mpr h))
  · intro i hdi
    rw [hnames]
    exact hn.dirs i ((hkind i).mp hdi)
  · intro i
    by_cases hid : i = d
    · subst hid
      have := he.naming hdir i
      have := hn.self i
      rw [View.node_set_self]
      omega
    · rw [View.node_set_of_ne hid]
      exact hn.self i
  · rw [hnames]
    exact hn.root
  · intro i hu hf
    rw [node_set_file hf hdir']
    exact hn.kept i hu (fun h => hf ((hkind i).mpr h))

theorem not_isDir_blank {g : Nat} : ¬ (blank g).isDir := by
  show ¬ ((0 : UInt8) = Inode.typeDir)
  decide

theorem names_set_file (hd : d < v.cap) (hf : ¬ (v.node d).isDir) (ho : ¬ o.isDir) (id : Nat) :
    (v.set d o).names id = v.names id := by
  refine View.names_set_of_naming hd ?_
  rw [Outline.naming_of_file ho, Outline.naming_of_file hf]

theorem Linked.setFile (hn : Linked v gone) (hd : d < v.cap) (h0 : d ≠ 0) (hf : ¬ (v.node d).isDir)
    (ho : ¬ o.isDir) (hother : ∀ i, i ≠ d → gone' i = gone i)
    (hlinks : o.nlink.toNat = v.names d + gone' d) (hused : 0 < v.names d + gone' d → v.Used d)
    (hkept : v.Used d → o.nlink = 0 → v.opens d ≠ 0) : Linked (v.set d o) gone' := by
  have hnames := names_set_file hd hf ho
  have hkind := isDir_set (v := v) (iff_of_false ho hf)
  refine ⟨?_, ?_, ?_, ?_, ?_, ?_, ?_⟩
  · intro i hi hdi
    have hne : i ≠ d := by
      rintro rfl
      exact hf ((hkind i).mp hdi)
    rw [View.node_set_of_ne hne] at hdi ⊢
    exact hn.paged i hi hdi
  · intro i hi
    rw [hnames] at hi
    by_cases hid : i = d
    · subst hid
      exact hused hi
    · rw [hother i hid] at hi
      exact hn.named i hi
  · intro i hfi
    rw [hnames]
    by_cases hid : i = d
    · subst hid
      rw [View.node_set_self]
      exact hlinks
    · rw [View.node_set_of_ne hid] at hfi ⊢
      rw [hother i hid]
      exact hn.files i hfi
  · intro i hdi
    have hne : i ≠ d := by
      rintro rfl
      exact hf ((hkind i).mp hdi)
    rw [hnames, hother i hne]
    exact hn.dirs i ((hkind i).mp hdi)
  · intro i
    by_cases hid : i = d
    · subst hid
      rw [View.node_set_self]
      exact Outline.naming_of_file ho i
    · rw [View.node_set_of_ne hid]
      exact hn.self i
  · rw [hnames, hother 0 (Ne.symm h0)]
    exact hn.root
  · intro i hu hfi hz
    by_cases hid : i = d
    · subst hid
      rw [View.node_set_self] at hz
      exact hkept hu hz
    · rw [View.node_set_of_ne hid] at hfi hz
      exact hn.kept i hu hfi hz

/-- A link whose name is gone. -/
def one (id : Nat) : Nat → Nat := fun i => if i = id then 1 else 0

@[simp] theorem one_self (id : Nat) : one id id = 1 := if_pos rfl

theorem one_of_ne {i : Nat} (h : i ≠ id) : one id i = 0 := if_neg h

/-- A directory whose name is gone may keep its links. -/
theorem Linked.forget (hn : Linked v (fun i => gone i + one id i)) (hdir : (v.node id).isDir) :
    Linked v gone where
  paged := hn.paged
  named i hi := hn.named i (by omega)
  files i hf := by
    have hne : i ≠ id := by
      rintro rfl
      exact hf hdir
    have := hn.files i hf
    rw [one_of_ne hne] at this
    exact this
  dirs i hd := by
    have := hn.dirs i hd
    omega
  self := hn.self
  root := by
    have := hn.root
    omega
  kept := hn.kept

theorem used_reclaim {i : Nat} : (v.reclaim id).Used i ↔ v.Used i ∧ i ≠ id := by
  unfold View.Used View.reclaim
  simp only [View.next_set, List.mem_cons, not_or]
  constructor
  · rintro ⟨h₁, h₂, h₃⟩
    exact ⟨⟨h₁, h₃⟩, h₂⟩
  · rintro ⟨⟨h₁, h₂⟩, h₃⟩
    exact ⟨h₁, h₃, h₂⟩

theorem node_reclaim_self : (v.reclaim id).node id = blank ((v.node id).generation + 1) :=
  View.node_set_self

theorem node_reclaim_of_ne {i : Nat} (h : i ≠ id) : (v.reclaim id).node i = v.node i :=
  View.node_set_of_ne h

/-- Giving back an id that has no name.  What a directory named is gone with it. -/
theorem Linked.reclaim (hn : Linked v gone') (hid : id < v.cap)
    (hother : ∀ i, i ≠ id → gone' i = gone i) (hz : v.names id + gone id = 0) :
    Linked (v.reclaim id) (fun i => gone i + (v.node id).naming i) := by
  have hnames : ∀ i, (v.reclaim id).names i + (v.node id).naming i = v.names i := by
    intro i
    have h : (v.set id (blank ((v.node id).generation + 1))).names i + (v.node id).naming i =
        v.names i + (blank ((v.node id).generation + 1)).naming i := View.names_set hid
    exact h
  have hdir : ∀ i, ((v.reclaim id).node i).isDir → i ≠ id ∧ (v.node i).isDir := by
    intro i hi
    have hne : i ≠ id := by
      rintro rfl
      rw [node_reclaim_self] at hi
      exact not_isDir_blank hi
    rw [node_reclaim_of_ne hne] at hi
    exact ⟨hne, hi⟩
  have hself := hn.self id
  refine ⟨?_, ?_, ?_, ?_, ?_, ?_, ?_⟩
  · intro i hi hd
    obtain ⟨hne, hd⟩ := hdir i hd
    rw [node_reclaim_of_ne hne]
    exact hn.paged i hi hd
  · intro i hi
    have := hnames i
    have hne : i ≠ id := by
      rintro rfl
      omega
    exact used_reclaim.mpr ⟨hn.named i (by rw [hother i hne]; omega), hne⟩
  · intro i hf
    have := hnames i
    by_cases hne : i = id
    · subst hne
      rw [node_reclaim_self]
      show 0 = _
      omega
    · rw [node_reclaim_of_ne hne] at hf ⊢
      have := hn.files i hf
      rw [hother i hne] at this
      omega
  · intro i hd
    obtain ⟨hne, hd⟩ := hdir i hd
    have := hn.dirs i hd
    have := hnames i
    rw [hother i hne] at *
    omega
  · intro i
    by_cases hne : i = id
    · subst hne
      rw [node_reclaim_self]
      rfl
    · rw [node_reclaim_of_ne hne]
      exact hn.self i
  · have := hnames 0
    by_cases hne : 0 = id
    · subst hne
      omega
    · have hroot := hn.root
      rw [hother 0 hne] at hroot
      omega
  · intro i hu hf
    obtain ⟨hu, hne⟩ := used_reclaim.mp hu
    rw [node_reclaim_of_ne hne] at hf ⊢
    exact hn.kept i hu hf

theorem Slots.reclaim (hs : Slots v handles) (hu : v.Used id) (hopen : v.opens id = 0)
    (h0 : id ≠ 0) : Slots (v.reclaim id) handles where
  nodup := List.nodup_cons.mpr ⟨hu.2, hs.nodup⟩
  free_lt i hi := by
    rcases List.mem_cons.mp hi with rfl | hi
    · exact hu.1
    · exact hs.free_lt i hi
  next_le := hs.next_le
  cap_lt := hs.cap_lt
  unused i hi := by
    by_cases hne : i = id
    · subst hne
      rw [node_reclaim_self]
      exact not_isDir_blank
    · rw [node_reclaim_of_ne hne]
      exact hs.unused i fun hu => hi (used_reclaim.mpr ⟨hu, hne⟩)
  opened i hi := by
    have hne : i ≠ id := by
      rintro rfl
      exact hi hopen
    obtain ⟨hu, hf⟩ := hs.opened i hi
    rw [node_reclaim_of_ne hne]
    exact ⟨used_reclaim.mpr ⟨hu, hne⟩, hf⟩
  held := hs.held
  handle_lt := hs.handle_lt
  root := by
    rw [node_reclaim_of_ne (Ne.symm h0)]
    exact ⟨used_reclaim.mpr ⟨hs.root.1, Ne.symm h0⟩, hs.root.2⟩

theorem toNat_pred32 (n : UInt32) : (pred32 n).toNat = n.toNat - 1 := by
  have hzero : (0 : UInt32).toNat = 0 := rfl
  have hone : (1 : UInt32).toNat = 1 := rfl
  unfold pred32
  split
  · next h =>
    have hpos := UInt32.lt_iff_toNat_lt.mp h
    rw [UInt32.toNat_sub_of_le n 1 (UInt32.le_iff_toNat_le.mpr (by omega)), hone]
  · next h =>
    have hnot : ¬ (0 : UInt32).toNat < n.toNat := fun hlt => h (UInt32.lt_iff_toNat_lt.mpr hlt)
    omega

/-- Dropping the link of a name that is gone. -/
theorem Linked.drop (hn : Linked v (fun i => gone i + one id i))
    (hid : id < v.cap) : ∃ gone', Linked (v.drop id) gone' ∧
    (¬ (v.node id).isDir → gone' = gone) := by
  have hu : v.Used id := hn.named id (by rw [one_self]; omega)
  have h0 : id ≠ 0 := by
    rintro rfl
    have := hn.root
    rw [one_self] at this
    omega
  unfold View.drop
  dsimp only
  by_cases hlast : pred32 (v.node id).nlink = 0 ∧ v.opens id = 0
  · rw [if_pos hlast]
    have hz : v.names id + gone id = 0 := by
      by_cases hdir : (v.node id).isDir
      · have := hn.dirs id hdir
        rw [one_self] at this
        omega
      · have hfiles := hn.files id hdir
        have hpred := toNat_pred32 (v.node id).nlink
        rw [hlast.1] at hpred
        rw [one_self] at hfiles
        have : (0 : UInt32).toNat = 0 := rfl
        omega
    refine ⟨_, hn.reclaim hid (fun i hi => ?_) hz, fun hf => ?_⟩
    · rw [one_of_ne hi]
      rfl
    funext i
    rw [Outline.naming_of_file hf]
    rfl
  · rw [if_neg hlast]
    refine ⟨gone, ?_, fun _ => rfl⟩
    by_cases hdir : (v.node id).isDir
    · have he : Edited (v.node id) [] [] (pred32 (v.node id).nlink)
          { v.node id with nlink := pred32 (v.node id).nlink } :=
        ⟨rfl, rfl, rfl, .refl _, hn.paged id hid hdir, rfl⟩
      exact (hn.forget hdir).edit hid hdir he rfl (fun _ => rfl)
    · have hfiles := hn.files id hdir
      rw [one_self] at hfiles
      have hpred := toNat_pred32 (v.node id).nlink
      refine hn.setFile hid h0 hdir hdir (fun i hi => ?_) ?_ (fun _ => hu)
        (fun _ hz ho => hlast ⟨hz, ho⟩)
      · rw [one_of_ne hi]
        rfl
      · show (pred32 (v.node id).nlink).toNat = _
        omega

theorem Slots.drop (hs : Slots v handles) (hu : v.Used id) (h0 : id ≠ 0) :
    Slots (v.drop id) handles := by
  unfold View.drop
  dsimp only
  split
  · next hlast => exact hs.reclaim hu hlast.2 h0
  · exact hs.set Iff.rfl

/-! ## New inodes -/

theorem not_used_of_alloc {v₁ : View} (ha : v.alloc = some (id, v₁)) :
    ¬ v.Used id := by
  rintro ⟨hlt, hfree⟩
  rcases View.alloc_cases ha with ⟨rest, hf, -⟩ | ⟨-, rfl, -, -⟩
  · exact hfree (hf ▸ List.mem_cons_self)
  · exact Nat.lt_irrefl _ hlt

theorem Created.not_used {parent : Nat} {name : String} {kind : UInt8} {data : Bytes}
    (h : Created v parent name kind data id v') : ¬ v.Used id := by
  cases h with
  | mk _ _ ha => exact not_used_of_alloc ha

theorem used_alloc (hs : Slots v handles) {v₁ : View} (ha : v.alloc = some (id, v₁)) {i : Nat} :
    v₁.Used i ↔ v.Used i ∨ i = id := by
  unfold View.Used
  rcases View.alloc_cases ha with ⟨rest, hf, rfl⟩ | ⟨hf, rfl, -, rfl⟩
  · have hnodup := hs.nodup
    have hlt := hs.free_lt
    rw [hf] at hnodup hlt ⊢
    have hout := (List.nodup_cons.mp hnodup).1
    have hid := hlt id List.mem_cons_self
    dsimp only
    rw [List.mem_cons, not_or]
    constructor
    · rintro ⟨h₁, h₂⟩
      by_cases hi : i = id
      · exact .inr hi
      · exact .inl ⟨h₁, hi, h₂⟩
    · rintro (⟨h₁, -, h₂⟩ | rfl)
      · exact ⟨h₁, h₂⟩
      · exact ⟨hid, hout⟩
  · rw [hf]
    simp only [List.not_mem_nil, not_false_eq_true, and_true]
    omega

theorem Created.used (hs : Slots v handles) {parent : Nat} {name : String} {kind : UInt8}
    {data : Bytes} (h : Created v parent name kind data id v') : v'.Used id := by
  cases h with
  | mk _ _ ha => exact (used_alloc hs ha).mpr (.inr rfl)

theorem naming_born (kind : UInt8) (data : Bytes) (g id : Nat) :
    (born kind data g).naming id = 0 := by
  unfold Outline.naming
  split <;> rfl

theorem Linked.born (hs : Slots v handles) (hn : Linked v gone) {v₁ : View}
    (ha : v.alloc = some (id, v₁)) (hid : id < v.cap) (kind : UInt8) (data : Bytes) (g : Nat) :
    Linked (v₁.set id (born kind data g)) (fun i => gone i + one id i) := by
  obtain ⟨hnode, hcap, hopens, -⟩ := View.alloc_same ha
  have hunused := not_used_of_alloc ha
  have hfile := hs.unused id hunused
  have hz : v.names id + gone id = 0 := by
    by_contra hne
    exact hunused (hn.named id (by omega))
  have hv₁ : ∀ i, v₁.names i = v.names i := by
    intro i
    unfold View.names
    rw [hnode, hcap]
  have hnames : ∀ i, (v₁.set id (Spec.born kind data g)).names i = v.names i := by
    intro i
    rw [← hv₁]
    refine View.names_set_of_naming (by rw [hcap]; exact hid) ?_
    rw [hnode, naming_born, Outline.naming_of_file hfile]
  have hother : ∀ i, i ≠ id → (v₁.set id (Spec.born kind data g)).node i = v.node i := by
    intro i hi
    rw [View.node_set_of_ne hi, hnode]
  refine ⟨?_, ?_, ?_, ?_, ?_, ?_, ?_⟩
  · intro i hi hd
    by_cases hne : i = id
    · subst hne
      rw [View.node_set_self]
      exact paged_nil
    · rw [hother i hne] at hd ⊢
      exact hn.paged i (by rw [← hcap]; exact hi) hd
  · intro i hi
    rw [hnames] at hi
    refine (used_alloc hs ha).mpr ?_
    by_cases hne : i = id
    · exact .inr hne
    · rw [one_of_ne hne] at hi
      exact .inl (hn.named i hi)
  · intro i hf
    rw [hnames]
    by_cases hne : i = id
    · subst hne
      rw [View.node_set_self] at hf ⊢
      have hlink : (Spec.born kind data g).nlink = 1 := if_neg hf
      rw [hlink, one_self]
      show 1 = _
      omega
    · rw [hother i hne] at hf ⊢
      rw [one_of_ne hne]
      exact hn.files i hf
  · intro i hd
    rw [hnames]
    by_cases hne : i = id
    · subst hne
      rw [one_self]
      omega
    · rw [hother i hne] at hd
      rw [one_of_ne hne]
      exact hn.dirs i hd
  · intro i
    by_cases hne : i = id
    · subst hne
      rw [View.node_set_self]
      exact naming_born kind data g i
    · rw [hother i hne]
      exact hn.self i
  · have h0 : (0 : Nat) ≠ id := by
      rintro rfl
      exact hunused hs.root.1
    rw [hnames, one_of_ne h0]
    exact hn.root
  · intro i hu hf hlink
    by_cases hne : i = id
    · subst hne
      rw [View.node_set_self] at hf hlink
      have hone : (Spec.born kind data g).nlink = 1 := if_neg hf
      rw [hone] at hlink
      cases hlink
    · rw [hother i hne] at hf hlink
      rw [View.opens_set, hopens]
      refine hn.kept i ?_ hf hlink
      exact ((used_alloc hs ha).mp hu).resolve_right hne

theorem Slots.born (hs : Slots v handles) {v₁ : View} (ha : v.alloc = some (id, v₁))
    (hid : id < v.cap) (kind : UInt8) (data : Bytes) (g : Nat) :
    Slots (v₁.set id (born kind data g)) handles := by
  obtain ⟨hnode, hcap, hopens, -⟩ := View.alloc_same ha
  have hunused := not_used_of_alloc ha
  have hother : ∀ i, i ≠ id → (v₁.set id (Spec.born kind data g)).node i = v.node i := by
    intro i hi
    rw [View.node_set_of_ne hi, hnode]
  have hused : ∀ i, (v₁.set id (Spec.born kind data g)).Used i ↔ v.Used i ∨ i = id :=
    fun i => used_alloc hs ha
  have hlists : v₁.free.Nodup ∧ (∀ i ∈ v₁.free, i < v₁.next) ∧ v₁.next ≤ v₁.cap := by
    rcases View.alloc_cases ha with ⟨rest, hf, rfl⟩ | ⟨hf, rfl, hlt, rfl⟩
    · have hnodup := hs.nodup
      have hlt := hs.free_lt
      rw [hf] at hnodup hlt
      exact ⟨(List.nodup_cons.mp hnodup).2, fun i hi => hlt i (List.mem_cons_of_mem _ hi),
        hs.next_le⟩
    · refine ⟨hs.nodup, fun i hi => ?_, hlt⟩
      exact Nat.lt_succ_of_lt (hs.free_lt i hi)
  refine ⟨hlists.1, hlists.2.1, hlists.2.2, ?_, ?_, ?_, ?_, ?_, ?_⟩
  · rw [View.cap_set, hcap]
    exact hs.cap_lt
  · intro i hi
    rw [hused, not_or] at hi
    rw [hother i hi.2]
    exact hs.unused i hi.1
  · intro i hi
    rw [View.opens_set, hopens] at hi
    obtain ⟨hu, hf⟩ := hs.opened i hi
    have hne : i ≠ id := by
      rintro rfl
      exact hunused hu
    rw [hused, hother i hne]
    exact ⟨.inl hu, hf⟩
  · intro i
    rw [View.opens_set, hopens]
    exact hs.held i
  · intro h hh
    rw [View.cap_set, hcap]
    exact hs.handle_lt h hh
  · have h0 : (0 : Nat) ≠ id := by
      rintro rfl
      exact hunused hs.root.1
    rw [hused, hother 0 h0]
    exact ⟨.inl hs.root.1, hs.root.2⟩

/-! ## Handles -/

theorem holding_append (handles : List Handle) (id i : Nat) :
    holding (handles ++ [⟨id, false⟩]) i = holding handles i + one id i := by
  unfold holding one
  rw [List.countP_append]
  congr 1
  by_cases h : i = id
  · simp [h]
  · simp [h, Ne.symm h]

theorem holding_close {handles : List Handle} {k : Nat} {h : Handle} (hk : handles[k]? = some h)
    (ho : ¬ h.closed) (i : Nat) :
    holding (handles.modify k fun h => { h with closed := true }) i + one h.id i =
      holding handles i := by
  induction handles generalizing k with
  | nil => cases hk
  | cons x l ih =>
    cases k with
    | zero =>
      cases hk
      unfold holding one
      rw [List.modify_zero_cons, List.countP_cons, List.countP_cons]
      by_cases hi : i = h.id
      · simp [hi, ho]
      · simp [hi, Ne.symm hi]
    | succ k =>
      have hrest := ih hk
      unfold holding at hrest ⊢
      rw [List.modify_succ_cons, List.countP_cons, List.countP_cons]
      omega

theorem Slots.openFile (hs : Slots v handles) (hu : v.Used id) (hf : ¬ (v.node id).isDir)
    (h : (v.opens id).toNat + 1 < 2 ^ 32) :
    Slots { v with opens := Function.update v.opens id (v.opens id + 1) }
      (handles ++ [⟨id, false⟩]) where
  nodup := hs.nodup
  free_lt := hs.free_lt
  next_le := hs.next_le
  cap_lt := hs.cap_lt
  unused := hs.unused
  opened i hi := by
    by_cases hne : i = id
    · subst hne
      exact ⟨hu, hf⟩
    · dsimp only at hi
      rw [Function.update_of_ne hne] at hi
      exact hs.opened i hi
  held i := by
    dsimp only
    rw [holding_append]
    by_cases hne : i = id
    · subst hne
      rw [Function.update_self, toNat_succ32 h, hs.held, one_self]
    · rw [Function.update_of_ne hne, hs.held, one_of_ne hne]
      rfl
  handle_lt h hh := by
    rcases List.mem_append.mp hh with hh | hh
    · exact hs.handle_lt h hh
    · rw [List.mem_singleton.mp hh]
      exact hu.lt hs
  root := hs.root

theorem Linked.withOpens (hn : Linked v gone) {opens : Nat → UInt32}
    (h : ∀ i, v.Used i → ¬ (v.node i).isDir → (v.node i).nlink = 0 → opens i ≠ 0) :
    Linked { v with opens := opens } gone :=
  ⟨hn.paged, hn.named, hn.files, hn.dirs, hn.self, hn.root, h⟩

theorem Linked.openFile (hn : Linked v gone) (h : (v.opens id).toNat + 1 < 2 ^ 32) :
    Linked { v with opens := Function.update v.opens id (v.opens id + 1) } gone := by
  refine hn.withOpens fun i hu hf hz => ?_
  by_cases hne : i = id
  · subst hne
    rw [Function.update_self]
    intro h0
    have := toNat_succ32 h
    rw [h0] at this
    cases this
  · rw [Function.update_of_ne hne]
    exact hn.kept i hu hf hz

section Close

variable {k : Nat} {h : Handle}

theorem opens_of_handle (hs : Slots v handles) (hk : handles[k]? = some h) (ho : ¬ h.closed) :
    v.opens h.id ≠ 0 := by
  intro h0
  have hheld := hs.held h.id
  have hclose := holding_close hk ho h.id
  rw [one_self] at hclose
  rw [h0] at hheld
  have : (0 : UInt32).toNat = 0 := rfl
  omega

theorem Slots.unhold (hs : Slots v handles) (hk : handles[k]? = some h) (ho : ¬ h.closed) :
    Slots { v with opens := Function.update v.opens h.id (pred32 (v.opens h.id)) }
      (handles.modify k fun h => { h with closed := true }) where
  nodup := hs.nodup
  free_lt := hs.free_lt
  next_le := hs.next_le
  cap_lt := hs.cap_lt
  unused := hs.unused
  opened i hi := by
    dsimp only at hi
    by_cases hne : i = h.id
    · subst hne
      exact hs.opened _ (opens_of_handle hs hk ho)
    · rw [Function.update_of_ne hne] at hi
      exact hs.opened i hi
  held i := by
    have hclose := holding_close hk ho i
    have hheld := hs.held i
    dsimp only
    by_cases hne : i = h.id
    · subst hne
      rw [Function.update_self, toNat_pred32]
      rw [one_self] at hclose
      omega
    · rw [Function.update_of_ne hne]
      rw [one_of_ne hne] at hclose
      omega
  handle_lt x hx := by
    obtain ⟨j, hj⟩ := List.mem_iff_getElem?.mp hx
    rw [List.getElem?_modify] at hj
    cases hy : handles[j]? with
    | none =>
      rw [hy] at hj
      cases hj
    | some y =>
      rw [hy] at hj
      have hlt := hs.handle_lt y (List.mem_of_getElem? hy)
      cases hj
      dsimp only
      split <;> exact hlt
  root := hs.root

theorem Slots.close (hs : Slots v handles) (hk : handles[k]? = some h) (ho : ¬ h.closed) :
    Slots (v.close h.id) (handles.modify k fun h => { h with closed := true }) := by
  obtain ⟨hu, hf⟩ := hs.opened _ (opens_of_handle hs hk ho)
  have hdown := hs.unhold hk ho
  unfold View.close
  dsimp only
  split
  · next hlast =>
    refine hdown.reclaim hu ?_ ?_
    · dsimp only
      rw [Function.update_self]
      exact hlast.1
    · rintro h0
      rw [h0] at hf
      exact hf hs.root.2
  · exact hdown

theorem Linked.close (hs : Slots v handles) (hn : Linked v gone) (hk : handles[k]? = some h)
    (ho : ¬ h.closed) : Linked (v.close h.id) gone := by
  obtain ⟨hu, hf⟩ := hs.opened _ (opens_of_handle hs hk ho)
  unfold View.close
  dsimp only
  split
  · next hlast =>
    have hz : v.names h.id + gone h.id = 0 := by
      rw [← hn.files h.id hf, hlast.2]
      rfl
    have hback := hn.reclaim (hu.lt hs) (fun i _ => rfl) hz
    have hgone : (fun i => gone i + (v.node h.id).naming i) = gone := by
      funext i
      rw [Outline.naming_of_file hf]
      rfl
    rw [hgone] at hback
    refine hback.withOpens fun i hui hfi hzi => ?_
    have hne : i ≠ h.id := (used_reclaim.mp hui).2
    rw [View.opens_set]
    dsimp only
    rw [Function.update_of_ne hne]
    exact hback.kept i hui hfi hzi
  · next hlast =>
    refine hn.withOpens fun i hui hfi hzi => ?_
    by_cases hne : i = h.id
    · subst hne
      rw [Function.update_self]
      exact fun hc => hlast ⟨hc, hzi⟩
    · rw [Function.update_of_ne hne]
      exact hn.kept i hui hfi hzi

end Close

/-! ## Whole operations -/

/-- The ids the operation links or opens are handed out, and what a rename drops is
not the directory it takes from. -/
def Fair (v : View) : Op → Prop
  | .link _ _ target => v.Used target
  | .openFile id => v.Used id
  | .rename src _ dst dn => src < v.cap → (v.node src).isDir → dst < v.cap → (v.node dst).isDir →
      ∀ old, ⟨dn, old⟩ ∈ (v.node dst).entries → old ≠ src
  | _ => True

/-- A rename replaces no directory. -/
def Spares (v : View) : Op → Prop
  | .rename src sn dst dn => dst < v.cap → (v.node dst).isDir → ∀ old,
      ⟨dn, old⟩ ∈ (v.node dst).entries → ⟨sn, old⟩ ∉ (v.node src).entries → ¬ (v.node old).isDir
  | _ => True

instance (v : View) (op : Op) : Decidable (Fair v op) :=
  match op with
  | .link _ _ target => inferInstanceAs (Decidable (target < v.next ∧ target ∉ v.free))
  | .openFile id => inferInstanceAs (Decidable (id < v.next ∧ id ∉ v.free))
  | .rename src _ dst dn =>
      decidable_of_iff (src < v.cap → (v.node src).isDir → dst < v.cap → (v.node dst).isDir →
          ⟨dn, src⟩ ∉ (v.node dst).entries)
        ⟨fun h hp hs hq hd _ hm heq => h hp hs hq hd (heq ▸ hm),
          fun h hp hs hq hd hm => h hp hs hq hd src hm rfl⟩
  | .lookup .. | .readdir .. | .readdirents .. | .openDirStream .. | .stat .. | .statfs
  | .fallocate .. | .access .. | .mkdir .. | .create .. | .symlink .. | .readlink ..
  | .writeFile .. | .readFile .. | .readAt .. | .writeAt .. | .append .. | .truncate ..
  | .unlink .. | .rmdir .. | .chmod .. | .chown .. | .utimes .. | .handleRead .. | .close ..
  | .commit | .setDirCache .. | .remount .. => isTrue trivial

theorem isDir_of_regular (h : o.kind = Inode.typeRegular) : ¬ o.isDir := by
  unfold Outline.isDir
  rw [h]
  decide

theorem tally_singleton (name : String) (id i : Nat) : tally [⟨name, id⟩] i = one id i := by
  rw [tally_cons, tally_nil, Nat.zero_add]
  unfold one
  simp only [eq_comm]

theorem Linked.ne_of_mem (hn : Linked v gone) (hd : (v.node d).isDir) {name : String}
    (hm : ⟨name, id⟩ ∈ (v.node d).entries) : id ≠ d := by
  rintro rfl
  have hpos : 0 < (v.node id).naming id := Outline.naming_pos.mpr ⟨hd, _, hm, rfl⟩
  have := hn.self id
  omega

theorem Linked.of_mem (hn : Linked v gone) (hd : d < v.cap)
    (hdir : (v.node d).isDir) {name : String}
    (hm : ⟨name, id⟩ ∈ (v.node d).entries) : v.Used id ∧ id ≠ 0 := by
  have hpos : 0 < (v.node d).naming id := Outline.naming_pos.mpr ⟨hdir, _, hm, rfl⟩
  have hle : (v.node d).naming id ≤ v.names id := View.naming_le_names hd
  refine ⟨hn.named id (by omega), ?_⟩
  rintro rfl
  have := hn.root
  omega

theorem set_drop (h : d ≠ id) : (v.drop id).set d o = (v.set d o).drop id := by
  have hcomm : (v.set id (blank ((v.node id).generation + 1))).set d o =
      (v.set d o).set id (blank ((v.node id).generation + 1)) := View.set_comm (Ne.symm h)
  unfold View.drop
  rw [View.node_set_of_ne (Ne.symm h), View.opens_set]
  dsimp only
  by_cases hlast : pred32 (v.node id).nlink = 0 ∧ v.opens id = 0
  · rw [if_pos hlast, if_pos hlast]
    unfold View.reclaim
    rw [View.node_set_of_ne (Ne.symm h)]
    exact congrArg (fun v' : View => { v' with free := id :: v.free }) hcomm
  · rw [if_neg hlast, if_neg hlast]
    exact View.set_comm (Ne.symm h)

theorem Linked.eq_of_mem (hn : Linked v gone) (hd : d < v.cap)
    (hdir : (v.node d).isDir) {name : String}
    {i : Nat} (hm : ⟨name, id⟩ ∈ (v.node d).entries) (hi : ⟨name, i⟩ ∈ (v.node d).entries) :
        i = id :=
  congrArg DirEntry.inode ((hn.paged d hd hdir).distinct.eq hi hm rfl)

theorem Spares.others {src dst : Nat} {sn dn : String} (h : Spares v (.rename src sn dst dn))
    (hn : Linked v gone) (hp : src < v.cap) (hsd : (v.node src).isDir) (hq : dst < v.cap)
    (hdd : (v.node dst).isDir) (hm : ⟨sn, id⟩ ∈ (v.node src).entries) (i : Nat)
    (hi : ⟨dn, i⟩ ∈ (v.node dst).entries) (hne : i ≠ id) : ¬ (v.node i).isDir :=
  h hq hdd i hi fun hm' => hne (hn.eq_of_mem hp hsd hm hm')

/-- Dropping what a rename replaced, after the directories are rewritten by `f`. -/
theorem Replaced.settle {dst : Nat} {dn : String} {old : List DirEntry} {v₁ : View}
    {f : View → View}
    (hr : Replaced v dst dn id old v₁) (hcomm : ∀ i, old = [⟨dn, i⟩] → f (v.drop i) = (f v).drop i)
    (hcap : (f v).cap = v.cap) (hkind : ∀ i, ((f v).node i).isDir ↔ (v.node i).isDir)
    (hs : Slots (f v) handles) (hn : Linked (f v) (fun i => gone i + tally old i)) :
    Slots (f v₁) handles ∧ ∃ gone', Linked (f v₁) gone' ∧
      ((∀ i, ⟨dn, i⟩ ∈ (v.node dst).entries → i ≠ id → ¬ (v.node i).isDir) → gone' = gone) := by
  cases hr with
  | absent => exact ⟨hs, gone, hn, fun _ => rfl⟩
  | @dropped i hm hne hlt =>
    have hn : Linked (f v) (fun j => gone j + one i j) := by
      simp only [tally_singleton] at hn
      exact hn
    have hu : (f v).Used i := hn.named i (by rw [one_self]; omega)
    have h0 : i ≠ 0 := by
      rintro rfl
      have := hn.root
      rw [one_self] at this
      omega
    rw [hcomm i rfl]
    obtain ⟨gone', hn', hsame⟩ := hn.drop (hcap ▸ hlt)
    refine ⟨hs.drop hu h0, gone', hn', fun hspare => hsame fun hd => ?_⟩
    exact hspare i hm hne ((hkind i).mp hd)

theorem handlesAfter_idle {op : Op} (h : Idle handles op) :
    handlesAfter op true handles = handles := by
  cases op with
  | close k =>
    apply List.ext_getElem?
    intro j
    unfold handlesAfter
    rw [List.getElem?_modify]
    by_cases hj : k = j
    · subst hj
      cases hx : handles[k]? with
      | none => rfl
      | some x =>
        have hc := h x hx
        simp only [if_true]
        rw [← hc]
        rfl
    · simp only [hj, if_false]
      exact Option.map_id'
  | openFile id => exact h.elim
  | _ => rfl

theorem handlesAfter_writes {op : Op} {f : Bytes → Bytes} (h : writes op = some (id, f)) :
    handlesAfter op true handles = handles := by
  cases op with
  | openFile => cases h
  | close => cases h
  | _ => rfl

theorem handlesAfter_creates {op : Op} {x : Nat × String × UInt8 × Bytes}
    (h : creates op = some x) : handlesAfter op true handles = handles := by
  cases op with
  | openFile => cases h
  | close => cases h
  | _ => rfl

theorem Slots.ne_root (hs : Slots v handles) (hf : ¬ (v.node id).isDir) : id ≠ 0 := by
  rintro rfl
  exact hf hs.root.2

theorem Created.orderly {parent : Nat} {name : String} {kind : UInt8} {data : Bytes}
    (hc : Created v parent name kind data id v') (hs : Slots v handles) (hn : Linked v gone) :
    Slots v' handles ∧ Linked v' gone := by
  cases hc with
  | @mk v₁ l o' hp hd ha hid hl hsucc habs he =>
    have hunused := not_used_of_alloc ha
    have hne : parent ≠ id := by
      rintro rfl
      exact hs.unused _ hunused hd
    have hparent : (v₁.set id (born kind data (v.node id).generation)).node parent =
        v.node parent := by
      rw [View.node_set_of_ne hne, (View.alloc_same ha).1]
    have hs₁ := hs.born ha hid kind data (v.node id).generation
    have hn₁ := hn.born hs ha hid kind data (v.node id).generation
    have hp₁ : parent < (v₁.set id (born kind data (v.node id).generation)).cap := by
      rw [View.cap_set, (View.alloc_same ha).2.1]
      exact hp
    rw [← hparent] at he hd
    have hn₂ : Linked ((v₁.set id (born kind data (v.node id).generation)).set parent o') gone := by
      refine hn₁.edit hp₁ hd he ?_ (fun i => ?_)
      · rw [tally_singleton, one_of_ne hne]
      · rw [tally_singleton]
        rfl
    have hs₂ := hs₁.set he.isDir
    exact ⟨⟨hs₂.nodup, hs₂.free_lt, hs₂.next_le, hs₂.cap_lt, hs₂.unused, hs₂.opened, hs₂.held,
      hs₂.handle_lt, hs₂.root⟩, ⟨hn₂.paged, hn₂.named, hn₂.files, hn₂.dirs, hn₂.self,
      hn₂.root, hn₂.kept⟩⟩

/-- The invariants of the namespace, over a successful operation. -/
theorem Change.orderly {op : Op} {r : Reply} (hc : Change handles v op r v') (hs : Slots v handles)
    (hn : Linked v gone) (hf : Fair v op) :
    Slots v' (handlesAfter op true handles) ∧
      ∃ gone', Linked v' gone' ∧ (Spares v op → gone' = gone) := by
  cases hc with
  | quiet h =>
    rw [handlesAfter_idle h]
    exact ⟨hs, gone, hn, fun _ => rfl⟩
  | @write _ id f h hid hk =>
    have hfile := isDir_of_regular hk
    rw [handlesAfter_writes h]
    refine ⟨hs.set Iff.rfl, gone, ?_, fun _ => rfl⟩
    exact hn.setFile hid (hs.ne_root hfile) hfile hfile (fun _ _ => rfl) (hn.files id hfile)
      (hn.named id) (fun hu => hn.kept id hu hfile)
  | create h hc =>
    rw [handlesAfter_creates h]
    obtain ⟨hs', hn'⟩ := hc.orderly hs hn
    exact ⟨hs', gone, hn', fun _ => rfl⟩
  | @unlink parent id name o' hp hd hm hid hfile he =>
    obtain ⟨hu, h0⟩ := hn.of_mem hp hd hm
    have hn₁ : Linked (v.set parent o') (fun i => gone i + one id i) :=
      hn.edit hp hd he rfl (fun i => by rw [tally_singleton]; rfl)
    obtain ⟨gone', hn', hsame⟩ := hn₁.drop hid
    refine ⟨(hs.set he.isDir).drop hu h0, gone', hn', fun _ => hsame ?_⟩
    rw [isDir_set he.isDir]
    exact hfile
  | @rmdir parent id name o' hp hd hm hid hdir hempty he =>
    obtain ⟨hu, h0⟩ := hn.of_mem hp hd hm
    have hne := hn.ne_of_mem hd hm
    have hn₁ : Linked (v.set parent o') (fun i => gone i + one id i) :=
      hn.edit hp hd he rfl (fun i => by rw [tally_singleton]; rfl)
    have hnode : (v.set parent o').node id = v.node id := View.node_set_of_ne hne
    have hz : (v.set parent o').names id + gone id = 0 := by
      have := hn₁.dirs id (by rw [hnode]; exact hdir)
      rw [one_self] at this
      omega
    have hn₂ := hn₁.reclaim hid (fun i hi => by rw [one_of_ne hi]; rfl) hz
    have hopen : v.opens id = 0 := by
      by_contra hne
      exact (hs.opened id hne).2 hdir
    refine ⟨(hs.set he.isDir).reclaim hu hopen h0, _, hn₂, fun _ => ?_⟩
    funext i
    rw [hnode, Outline.naming_of_dir hdir, hempty]
    rfl
  | @link parent target name o' hp hd ht hfile hsucc habs he =>
    have h0 := hs.ne_root hfile
    have hne : parent ≠ target := by
      rintro rfl
      exact hfile hd
    have hlinks := hn.files target hfile
    have hn₁ : Linked (v.set target { v.node target with nlink := (v.node target).nlink + 1 })
        (fun i => gone i + one target i) := by
      refine hn.setFile ht h0 hfile hfile (fun i hi => by rw [one_of_ne hi]; rfl) ?_
        (fun _ => hf) ?_
      · rw [toNat_succ32 hsucc, one_self]
        omega
      · intro _ (hz : (v.node target).nlink + 1 = 0)
        have := toNat_succ32 hsucc
        rw [hz] at this
        cases this
    have hparent : (v.set target { v.node target with nlink := (v.node target).nlink + 1 }).node
        parent = v.node parent := View.node_set_of_ne hne
    have hs₁ : Slots (v.set target { v.node target with nlink := (v.node target).nlink + 1 })
        handles :=
      hs.set Iff.rfl
    rw [← hparent] at he hd
    refine ⟨hs₁.set he.isDir, gone, ?_, fun _ => rfl⟩
    refine hn₁.edit hp hd he ?_ (fun i => ?_)
    · rw [tally_singleton, one_of_ne hne]
    · rw [tally_singleton]
      rfl
  | stay => exact ⟨hs, gone, hn, fun _ => rfl⟩
  | @within src id sn dn old v₁ o' hp hd hm hr he =>
    have hcomm : ∀ i, old = [⟨dn, i⟩] → (v.drop i).set src o' = (v.set src o').drop i := by
      rintro i rfl
      cases hr with
      | dropped hmem _ _ => exact set_drop (Ne.symm (hf hp hd hp hd i hmem))
    have hn₁ : Linked (v.set src o') (fun i => gone i + tally old i) := by
      refine hn.edit hp hd he ?_ (fun i => ?_)
      · rw [tally_singleton, one_of_ne (Ne.symm (hn.ne_of_mem hd hm))]
      · rw [tally_singleton, tally_cons]
        unfold one
        simp only [eq_comm]
        omega
    obtain ⟨hs', gone', hn', hsame⟩ := hr.settle (f := fun v => v.set src o') hcomm rfl
      (isDir_set he.isDir) (hs.set he.isDir) hn₁
    exact ⟨hs', gone', hn', fun hspare => hsame (hspare.others hn hp hd hp hd hm)⟩
  | @across src dst id sn dn old v₁ s' d' hne hp hsd hq hdd hm hloop hr hed hes =>
    have hid : dst ≠ id := by
      rintro rfl
      exact hloop hdd .refl
    have hdst : (v.set src s').node dst = v.node dst := View.node_set_of_ne (Ne.symm hne)
    have hsrc : (v.set dst d').node src = v.node src := View.node_set_of_ne hne
    have hkind : ∀ i, (((v.set dst d').set src s').node i).isDir ↔ (v.node i).isDir := by
      intro i
      rw [isDir_set (by rw [hsrc]; exact hes.isDir), isDir_set hed.isDir]
    have hcomm : ∀ i, old = [⟨dn, i⟩] →
        ((v.drop i).set dst d').set src s' = ((v.set dst d').set src s').drop i := by
      rintro i rfl
      cases hr with
      | dropped hmem _ _ =>
        rw [set_drop (Ne.symm (hn.ne_of_mem hdd hmem)),
          set_drop (Ne.symm (hf hp hsd hq hdd i hmem))]
    have hn₂ : Linked ((v.set dst d').set src s') (fun i => gone i + tally old i) := by
      -- the name leaves its old directory first, so that nothing is named twice
      rw [View.set_comm (Ne.symm hne)]
      have hn₁ : Linked (v.set src s') (fun i => gone i + one id i) :=
        hn.edit hp hsd hes rfl (fun i => by rw [tally_singleton]; rfl)
      rw [← hdst] at hed hdd
      refine hn₁.edit hq hdd hed ?_ (fun i => ?_)
      · rw [tally_singleton, one_of_ne hid]
      · rw [tally_singleton]
        omega
    obtain ⟨hs', gone', hn', hsame⟩ := hr.settle (f := fun v => (v.set dst d').set src s') hcomm rfl
      hkind ((hs.set hed.isDir).set (by rw [hsrc]; exact hes.isDir)) hn₂
    exact ⟨hs', gone', hn', fun hspare => hsame (hspare.others hn hp hsd hq hdd hm)⟩
  | openFile hid hk hsucc =>
    exact ⟨hs.openFile hf (isDir_of_regular hk) hsucc, gone, hn.openFile hsucc, fun _ => rfl⟩
  | close hh ho => exact ⟨hs.close hh ho, gone, Linked.close hs hn hh ho, fun _ => rfl⟩

/-! ## Back to the machine -/

theorem ready_of {t : State} (hs : Slots t.view handles) (hn : Linked t.view gone) :
    Ready t handles where
  neat := hn.paged
  free id hid := hs.unused id fun hu => hu.2 hid
  fresh := hs.unused t.next fun hu => Nat.lt_irrefl _ hu.1
  self id hd e he hself := by
    have hpos : 0 < (t.view.node id).naming id := Outline.naming_pos.mpr ⟨hd, e, he, hself⟩
    have := hn.self id
    omega
  cap_lt := hs.cap_lt
  free_lt id hid := Nat.lt_of_lt_of_le (hs.free_lt id hid) hs.next_le
  handle_lt := hs.handle_lt

theorem planOf_close {env : Env} {t : State} (h : Ready t handles) (k : Nat) :
    Sat (planOf env handles (.close k)).1 t (fun _ _ => True) (fun f _ => f = .panic) := by
  rw [planOf]
  cases hk : handles[k]? with
  | none => exact sat_pure trivial
  | some hd =>
    have hid : hd.id < t.cap := h.handle_lt hd (List.mem_of_getElem? hk)
    refine sat_map ?_
    unfold close
    refine Within.sat_ite (fun _ => sat_pure trivial) (fun _ => sat_get_bind ?_)
    refine sat_bind (update_sat (E := fun _ _ => False)) ?_ (fun _ _ => False.elim)
    rintro _ _ rfl
    refine Within.sat_ite (fun _ => ?_) (fun _ => sat_pure trivial)
    refine sat_bind (getNode_sat hd.id) ?_ (fun _ _ hf => absurd hid (Nat.not_lt.mpr hf.2))
    rintro n t' ⟨rfl, hlt, rfl⟩
    exact Within.sat_ite (fun _ => (reclaim_sat hlt rfl).mono (fun _ _ _ => trivial)
      (fun _ _ h => h)) (fun _ => sat_pure trivial)

/-- An error leaves the view and the handles as they were. -/
theorem planOf_error {env : Env} {t t' : State} {op : Op} {e : Fs.Error} (hl : env.Lawful)
    (h : Ready t handles) (hop : Answers op)
    (hrun : (planOf env handles op).1 t = .error (.err e) t') :
    t'.view = t.view ∧ handlesAfter op false handles = handles := by
  refine ⟨(planOf_change hl h hop).error hrun e rfl, ?_⟩
  cases op with
  | close k => cases (planOf_close h k).error hrun
  | _ => rfl

/-! ## States of the machine -/

section States

variable {t t' : State}

/-- The free list and the links are in order. -/
def Orderly (v : View) (handles : List Handle) : Prop := Slots v handles ∧ ∃ gone, Linked v gone

theorem Orderly.ready (h : Orderly t.view handles) : Ready t handles := by
  obtain ⟨hs, gone, hn⟩ := h
  exact ready_of hs hn

theorem Orderly.step {op : Op} {r : Reply} (h : Orderly v handles) (hf : Fair v op)
    (hc : Change handles v op r v') : Orderly v' (handlesAfter op true handles) := by
  obtain ⟨hs, gone, hn⟩ := h
  obtain ⟨hs', gone', hn', -⟩ := hc.orderly hs hn hf
  exact ⟨hs', gone', hn'⟩

/-- The operation opens, closes or writes a file, or is a commit. -/
def mild : Op → Bool
  | .openFile _ => true
  | .close _ => true
  | .writeFile _ _ => true
  | .writeAt _ _ _ => true
  | .append _ _ => true
  | .truncate _ _ => true
  | .commit => true
  | _ => false

/-- A change that leaves the directories alone and frees no directory. -/
theorem Ready.of_dirs {handles' : List Handle} (h : Ready t handles)
    (hcap : t'.view.cap = t.view.cap) (hnext : t'.view.next = t.view.next)
    (hfree : ∀ id ∈ t'.view.free, id ∈ t.view.free ∨ id < t.cap ∧ ¬ (t'.view.node id).isDir)
    (hdirs : ∀ id, (t'.view.node id).isDir → t'.view.node id = t.view.node id)
    (hlt : ∀ h ∈ handles', h.id < t.cap) : Ready t' handles' := by
  have hcap : t'.cap = t.cap := hcap
  have hnext : t'.next = t.next := hnext
  have hdir : ∀ id, (t'.node id).isDir → (t.node id).isDir ∧
      (t'.node id).pages = (t.node id).pages := by
    intro id hd
    have heq := hdirs id hd
    have hkind : (t'.node id).kind = (t.node id).kind := congrArg Outline.kind heq
    exact ⟨hkind.symm.trans hd, congrArg Outline.pages heq⟩
  refine ⟨⟨fun id hid hd => ?_, fun id hid hd => ?_, fun hd => ?_, fun id hd e he => ?_⟩, ?_, ?_,
    ?_⟩
  · rw [(hdir id hd).2]
    exact h.neat id (hcap ▸ hid) (hdir id hd).1
  · rcases hfree id hid with hold | ⟨-, hno⟩
    · exact h.free id hold (hdir id hd).1
    · exact hno hd
  · rw [hnext] at hd
    exact h.fresh (hdir _ hd).1
  · have he : e ∈ (t'.node id).pages.flatten := he
    rw [(hdir id hd).2] at he
    exact h.self id (hdir id hd).1 e he
  · rw [hcap]
    exact h.cap_lt
  · intro id hid
    rw [hcap]
    rcases hfree id hid with hold | ⟨hid, -⟩
    · exact h.free_lt id hold
    · exact hid
  · rw [hcap]
    exact hlt

/-- A close gives back at most the id of the handle, as a file. -/
theorem Ready.close {i : Nat} {hd : Handle} (h : Ready t handles) (hi : handles[i]? = some hd)
    (hv : t'.view = t.view.close hd.id) :
    Ready t' (handles.modify i fun h => { h with closed := true }) := by
  have hlt : hd.id < t.cap := h.handle_lt hd (List.mem_of_getElem? hi)
  have hhandles : ∀ x ∈ handles.modify i fun h => { h with closed := true }, x.id < t.cap := by
    intro x hx
    obtain ⟨j, hj⟩ := List.mem_iff_getElem?.mp hx
    rw [List.getElem?_modify] at hj
    obtain ⟨y, hy, rfl⟩ := Option.map_eq_some_iff.mp hj
    have hy := h.handle_lt y (List.mem_of_getElem? hy)
    split
    · exact hy
    · exact hy
  by_cases hlast : pred32 (t.view.opens hd.id) = 0 ∧ (t.view.node hd.id).nlink = 0
  · rw [View.close, if_pos hlast] at hv
    refine h.of_dirs ?_ ?_ (fun id hid => ?_) (fun id hid => ?_) hhandles
    · rw [hv]
      rfl
    · rw [hv]
      rfl
    · rw [hv] at hid ⊢
      rcases List.mem_cons.mp hid with rfl | hid
      · refine .inr ⟨hlt, ?_⟩
        show ¬ Outline.isDir (Function.update t.view.node hd.id _ hd.id)
        rw [Function.update_self]
        exact isDir_of_regular rfl
      · exact .inl hid
    · rw [hv] at hid ⊢
      have hne : id ≠ hd.id := by
        rintro rfl
        change Outline.isDir (Function.update t.view.node hd.id _ hd.id) at hid
        rw [Function.update_self] at hid
        exact isDir_of_regular rfl hid
      exact Function.update_of_ne hne _ _
  · rw [View.close, if_neg hlast] at hv
    refine h.of_dirs ?_ ?_ (fun id hid => ?_) (fun id _ => ?_) hhandles
    · rw [hv]
    · rw [hv]
    · rw [hv] at hid
      exact .inl hid
    · rw [hv]

/-- Such an operation asks nothing of the id it is given. -/
theorem Ready.mild {op : Op} {r : Reply} (h : Ready t handles) (hm : mild op)
    (hc : Change handles t.view op r t'.view) : Ready t' (handlesAfter op true handles) := by
  generalize hv : t'.view = v' at hc
  cases hc with
  | quiet hi =>
    rw [handlesAfter_idle hi]
    refine h.of_dirs ?_ ?_ (fun id hid => .inl (hv ▸ hid)) (fun id _ => ?_) h.handle_lt
    all_goals rw [hv]
  | @write _ id f hw hid hk =>
    rw [handlesAfter_writes hw]
    refine h.of_dirs ?_ ?_ (fun i hi => .inl ?_) (fun i hi => ?_) h.handle_lt
    · rw [hv]
      rfl
    · rw [hv]
      rfl
    · rw [hv] at hi
      exact hi
    · rw [hv] at hi ⊢
      have hne : i ≠ id := by
        rintro rfl
        rw [View.node_set_self] at hi
        exact isDir_of_regular hk hi
      exact View.node_set_of_ne hne
  | @openFile id hid hk hs =>
    refine h.of_dirs ?_ ?_ (fun i hi => .inl ?_) (fun i hi => ?_) (fun x hx => ?_)
    · rw [hv]
    · rw [hv]
    · rw [hv] at hi
      exact hi
    · rw [hv]
    · rcases List.mem_append.mp hx with hx | hx
      · exact h.handle_lt x hx
      · rw [List.mem_singleton.mp hx]
        exact hid
  | close hi _ => exact h.close hi hv
  | create hmakes =>
    cases op with
    | mkdir | create | symlink => cases hm
    | _ => cases hmakes
  | _ => cases hm

end States

end Spec
end BloomFS
