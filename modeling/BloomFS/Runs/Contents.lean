/-
Files as lists of bytes.

Along a run of successful calls each file is the list of bytes that its writes made of it,
and a write to one file leaves every other file alone.
-/
import BloomFS.Runs.Links

namespace BloomFS
namespace Runs

open Bytes Exec Block Dir Fs Store Spec Refine

variable {env : Env} {D : Disk → Prop} {past : List Session} {s s' : Session} {v v' v₁ v₂ v₃ : View}

/-- The contents of every file. -/
abbrev Contents := Nat → Bytes

/-- A new file is empty; a write is the function `writes` gives for it, on its file. -/
def Contents.after (c : Contents) (op : Op) (r : Reply) : Contents :=
  match creates op, writes op, r with
  | some _, _, .id id => Function.update c id []
  | none, some x, _ => Function.update c x.1 (x.2 (c x.1))
  | _, _, _ => c

/-- A run of successful calls on known ids that replace no directory, with the contents of
the files. -/
inductive Filed (env : Env) (D : Disk → Prop) : List Session → Session → Contents → Prop
  | start {key : Option Bytes} {d : Disk} {fs : FS} (blank : Blank d) (hd : D d)
      (run : format env key d = .ok fs) : Filed env D [⟨fs, []⟩] ⟨fs, []⟩ fun _ => []
  | step {past : List Session} {s s' : Session} {c : Contents} {op : Op} {r : Reply}
      (h : Filed env D past s c) (does : perform env op s = (.ok r, s'))
      (hp : Proper env s op (.ok r)) :
      Filed env D (past ++ [s']) s' (c.after op r)

theorem Filed.run {c : Contents} (h : Filed env D past s c) : Run env D (Proper env) past s := by
  induction h with
  | start blank hd run => exact .start blank hd run
  | step _ does hp ih => exact .step ih does hp

theorem Filed.of_run (run : Run env D (Proper env) past s) : ∃ c, Filed env D past s c := by
  induction run with
  | start blank hd run => exact ⟨_, .start blank hd run⟩
  | step _ does hp ih =>
    obtain ⟨c, hc⟩ := ih
    obtain ⟨-, r, rfl⟩ := hp.1
    exact ⟨_, hc.step does hp⟩

/-! ## One step -/

/-- The files in use are the ones of `v`, with their contents. -/
def SameFiles (v v' : View) : Prop :=
  ∀ id, v'.Used id → v.Used id ∧ ((v'.node id).kind = Inode.typeRegular →
    (v.node id).kind = Inode.typeRegular ∧ (v'.node id).data = (v.node id).data)

theorem SameFiles.refl (v : View) : SameFiles v v := fun _ hu => ⟨hu, fun hk => ⟨hk, rfl⟩⟩

theorem SameFiles.trans (h : SameFiles v₁ v₂) (h' : SameFiles v₂ v₃) : SameFiles v₁ v₃ :=
    fun id hu => by
  obtain ⟨hu₂, h₂⟩ := h' id hu
  obtain ⟨hu₁, h₁⟩ := h id hu₂
  refine ⟨hu₁, fun hk => ?_⟩
  obtain ⟨hk₂, hd₂⟩ := h₂ hk
  obtain ⟨hk₁, hd₁⟩ := h₁ hk₂
  exact ⟨hk₁, hd₂.trans hd₁⟩

/-- A slot that is no file, or is the file it was. -/
theorem SameFiles.set {d : Nat} {o : Outline} (h : o.kind = Inode.typeRegular →
    (v.node d).kind = Inode.typeRegular ∧ o.data = (v.node d).data) : SameFiles v (v.set d o) := by
  intro id hu
  refine ⟨hu, fun hk => ?_⟩
  change (Function.update v.node d o id).kind = _ at hk
  show _ ∧ (Function.update v.node d o id).data = _
  by_cases hid : id = d
  · subst hid
    rw [Function.update_self] at hk ⊢
    exact h hk
  · rw [Function.update_of_ne hid] at hk ⊢
    exact ⟨hk, rfl⟩

theorem SameFiles.setDir {d : Nat} {o : Outline} (h : o.isDir) : SameFiles v (v.set d o) := by
  refine .set fun hk => ?_
  rw [show o.kind = Inode.typeDir from h] at hk
  exact absurd hk (by decide)

theorem SameFiles.relink (v : View) (d : Nat) (k : UInt32) :
    SameFiles v (v.set d { v.node d with nlink := k }) := .set fun hk => ⟨hk, rfl⟩

/-- An id that was given back is not in use. -/
theorem SameFiles.reclaim (v : View) (d : Nat) : SameFiles v (v.reclaim d) := by
  intro id hu
  obtain ⟨hlt, hfree⟩ := hu
  have hne : id ≠ d := fun h0 => hfree (h0 ▸ List.mem_cons_self)
  refine ⟨⟨hlt, fun hmem => hfree (List.mem_cons_of_mem _ hmem)⟩, fun hk => ?_⟩
  change (Function.update v.node d _ id).kind = _ at hk
  show _ ∧ (Function.update v.node d _ id).data = _
  rw [Function.update_of_ne hne] at hk ⊢
  exact ⟨hk, rfl⟩

theorem SameFiles.drop (v : View) (d : Nat) : SameFiles v (v.drop d) := by
  unfold View.drop
  dsimp only
  split
  · exact .reclaim v d
  · exact .relink v d _

theorem SameFiles.close (v : View) (d : Nat) : SameFiles v (v.close d) := by
  have hopens : SameFiles v { v with opens := Function.update v.opens d (pred32 (v.opens d)) } :=
    fun _ hu => ⟨hu, fun hk => ⟨hk, rfl⟩⟩
  unfold View.close
  dsimp only
  split
  · exact hopens.trans (.reclaim _ d)
  · exact hopens

theorem SameFiles.replaced {dst id : Nat} {dn : String} {old : List DirEntry}
    (h : Replaced v dst dn id old v₁) : SameFiles v v₁ := by
  cases h with
  | absent => exact .refl v
  | dropped => exact .drop v _

/-- The files in use have the contents `c`. -/
def Agrees (v : View) (c : Contents) : Prop :=
  ∀ id, v.Used id → (v.node id).kind = Inode.typeRegular → (v.node id).data = c id

theorem Agrees.same {c : Contents} (h : Agrees v c) (hs : SameFiles v v') : Agrees v' c := by
  intro id hu hk
  obtain ⟨hu₀, hsame⟩ := hs id hu
  obtain ⟨hk₀, hd⟩ := hsame hk
  rw [hd]
  exact h id hu₀ hk₀

theorem after_of_idle {handles : List Handle} {op : Op} (h : Idle handles op)
    (c : Contents) (r : Reply) : c.after op r = c := by
  cases op with
  | mkdir | create | symlink | writeFile | writeAt | append | truncate | unlink | rmdir | link
  | rename
  | openFile | remount => exact h.elim
  | _ => rfl

theorem after_of_writes {op : Op} {id : Nat} {f : Bytes → Bytes}
    (h : writes op = some (id, f)) (c : Contents)
    (r : Reply) : c.after op r = Function.update c id (f (c id)) := by
  cases op with
  | writeFile | writeAt | append | truncate =>
    cases h
    rfl
  | _ => cases h

theorem Agrees.write {id : Nat} {f : Bytes → Bytes} {c : Contents} (h : Agrees v c)
    (hk : (v.node id).kind = Inode.typeRegular) :
    Agrees (v.set id { v.node id with data := f (v.node id).data })
        (Function.update c id (f (c id))) := by
  intro i hu hki
  change (Function.update v.node id _ i).kind = _ at hki
  show (Function.update v.node id _ i).data = Function.update c id _ i
  by_cases hne : i = id
  · subst hne
    rw [Function.update_self, Function.update_self, ← h i hu hk]
  · rw [Function.update_of_ne hne] at hki ⊢
    rw [Function.update_of_ne hne]
    exact h i hu hki

theorem used_of_alloc {id i : Nat} (ha : v.alloc = some (id, v₁)) (hne : i ≠ id) (hu : v₁.Used i) :
    v.Used i := by
  obtain ⟨hlt, hfree⟩ := hu
  rcases View.alloc_cases ha with ⟨rest, hf, rfl⟩ | ⟨hf, rfl, -, rfl⟩
  · refine ⟨hlt, ?_⟩
    rw [hf, List.mem_cons]
    rintro (h0 | hmem)
    · exact hne h0
    · exact hfree hmem
  · have hlt : i < v.next + 1 := hlt
    exact ⟨by omega, hfree⟩

theorem node_of_alloc {id : Nat} (ha : v.alloc = some (id, v₁)) : v₁.node = v.node := by
  rcases View.alloc_cases ha with ⟨rest, -, rfl⟩ | ⟨-, -, -, rfl⟩ <;> rfl

theorem Agrees.created {parent id : Nat} {name : String} {kind : UInt8} {data : Bytes}
    {c : Contents} (h : Agrees v c) (hnew : Created v parent name kind data id v')
    (hdata : kind = Inode.typeRegular → data = []) : Agrees v' (Function.update c id []) := by
  cases hnew with
  | @mk v₁ nlink o' hp hd ha hid hn hs habs he =>
    intro i hu hki
    have hnode : ∀ j, View.node { (v₁.set id (born kind data (v.node id).generation)).set
      parent o' with
        clean := v.clean && (v.node id).blob.isEmpty } j =
        Function.update (Function.update v.node id (born kind data (v.node id).generation))
            parent o' j := by
      intro j
      rw [← node_of_alloc ha]
      rfl
    rw [hnode] at hki ⊢
    by_cases hpar : i = parent
    · subst hpar
      rw [Function.update_self, show o'.kind = Inode.typeDir from he.isDir.mpr hd] at hki
      exact absurd hki (by decide)
    rw [Function.update_of_ne hpar] at hki ⊢
    by_cases hne : i = id
    · subst hne
      rw [Function.update_self] at hki ⊢
      rw [Function.update_self]
      exact hdata hki
    · rw [Function.update_of_ne hne] at hki ⊢
      rw [Function.update_of_ne hne]
      exact h i (used_of_alloc ha hne hu) hki

/-- A step of the machine does to its files what `after` does to the contents. -/
theorem Agrees.step {handles : List Handle} {op : Op} {r : Reply} {c : Contents} (h : Agrees v c)
    (hc : Change handles v op r v') : Agrees v' (c.after op r) := by
  cases hc with
  | quiet hi =>
    rw [after_of_idle hi]
    exact h
  | write hw hid hk =>
    rw [after_of_writes hw]
    exact h.write hk
  | create hcr hnew =>
    cases op with
    | mkdir | create | symlink =>
      cases hcr
      exact h.created hnew (by first | exact fun _ => rfl | exact fun hk => absurd hk (by decide))
    | _ => cases hcr
  | unlink hp hd hm hid hf he =>
    exact h.same ((SameFiles.setDir (he.isDir.mpr hd)).trans (.drop _ _))
  | rmdir hp hd hm hid hcd hempty he =>
    exact h.same ((SameFiles.setDir (he.isDir.mpr hd)).trans (.reclaim _ _))
  | link hp hd ht hf hs habs he =>
    exact h.same ((SameFiles.relink v _ _).trans (.setDir (he.isDir.mpr hd)))
  | stay => exact h
  | within hp hd hm hr he =>
    exact h.same ((SameFiles.replaced hr).trans (.setDir (he.isDir.mpr hd)))
  | across hne hp hsd hq hdd hm hloop hr hed hes =>
    exact h.same (((SameFiles.replaced hr).trans (.setDir (hed.isDir.mpr hdd))).trans
      (.setDir (hes.isDir.mpr hsd)))
  | openFile => exact h.same fun _ hu => ⟨hu, fun hk => ⟨hk, rfl⟩⟩
  | close => exact h.same (.close v _)

/-! ## Whole runs -/

theorem after_of_beside {op : Op} (h : ¬ Answers op) (c : Contents) (r : Reply) :
    c.after op r = c := by
  cases op with
  | commit | remount | statfs | fallocate => rfl
  | _ => exact absurd trivial h

/-- A proper call is fair, and a step of the machine or nothing to it. -/
theorem proper_change (hl : env.Lawful) (run : Run env D (Proper env) past s) {t : State} {op : Op}
    {r : Reply} (hrep : Rep env s.fs t) (ha : Arranged t.view s.handles)
    (hp : Proper env s op (.ok r))
    (hplay : InPlay env s'.fs.dev.trace) (does : perform env op s = (.ok r, s')) :
    Fair t.view op ∧ Spares t.view op ∧ ∃ t', Rep env s'.fs t' ∧
      (Change s.handles t.view op r t'.view ∧ s'.handles = handlesAfter op true s.handles ∨
        t'.view = t.view ∧ s'.handles = s.handles ∧ ¬ Answers op) := by
  have hroot := root_of_run (fun _ _ _ hp => hp.1.1) run
  have hsp := hrep.spares hl ha.ready.neat ha.slots hp.2.2
  have hfair := fair_of_spares hrep ha (current_of_known hl hrep ha hroot hp.2.1) hsp
  have hgo : ¬ Stopped (.ok r) s'.fs := by
    rintro ⟨f, hf, -⟩
    cases hf
  obtain ⟨t', -, hrep', ⟨r', hr, hchange, hhandles⟩ | ⟨hview, hhandles, hno⟩⟩ :=
    perform_change hl hrep ha.ready hp.1.1 (apart_of_fair hfair) hplay hgo does
  · cases hr
    exact ⟨hfair, hsp, t', hrep', .inl ⟨hchange, hhandles⟩⟩
  · exact ⟨hfair, hsp, t', hrep', .inr ⟨hview, hhandles,
      hno.resolve_right fun ⟨f, hf⟩ => by cases hf⟩⟩

/-- Along the run the files of the machine have the contents of the model. -/
theorem Filed.agrees (hl : env.Lawful) {c : Contents} (h : Filed env D past s c)
    (hplay : InPlay env s.fs.dev.trace) :
    ∃ t, Rep env s.fs t ∧ Arranged t.view s.handles ∧ Tidy t.view ∧ Agrees t.view c := by
  induction h with
  | start blank hd run =>
    refine ⟨fresh env, rep_of_formatted (formatted_of_ok blank run), arranged_fresh env,
      tidy_fresh env, ?_⟩
    rintro id ⟨hlt, -⟩ hk
    have hlt : id < 1 := hlt
    obtain rfl : id = 0 := by omega
    cases (show Inode.typeDir = Inode.typeRegular from hk)
  | @step past s s' c op r hf does hp ih =>
    obtain ⟨t, hrep, ha, htidy, hag⟩ := ih (hplay.of_subset (trace_grows hp.1.1 does).subset)
    have hroot := root_of_run (fun _ _ _ hp => hp.1.1) hf.run
    have hwrites : ∀ id f, writes op = some (id, f) → t.view.Used id := fun id f hw =>
      used_of_known hl hrep ha.slots ha.linked hroot (hp.2.1 id (mem_targets_of_writes hw).2)
    obtain ⟨hfair, hsp, t', hrep', ⟨hchange, hhandles⟩ | ⟨hview, hhandles, hno⟩⟩ :=
      proper_change hl hf.run hrep ha hp hplay does
    · refine ⟨t', hrep', ?_, hchange.tidy ha.slots ha.linked hfair hwrites htidy, hag.step hchange⟩
      rw [hhandles]
      exact ha.step hfair hsp hchange
    · rw [after_of_beside hno, hhandles]
      rw [← hview] at ha htidy hag
      exact ⟨t', hrep', ha, htidy, hag⟩

/-- At every point of a run of successful calls on known ids, as long as no two blocks
collide and none has 4 GiB, every file that is named or held open reads as the list of
bytes its writes made of it, whole and in ranges; and an append answers the length of
that list. -/
theorem files_are_lists (hl : env.Lawful) {c : Contents} (h : Filed env D past s c)
    (hplay : InPlay env s.fs.dev.trace) :
    (∀ id in_, s.fs.Known env id → s.fs.regular id = .ok in_ →
      s.fs.readFile env id = .ok (c id) ∧ in_.size.toNat = (c id).length ∧
      ∀ off length, off + length < 2 ^ 64 →
        s.fs.readAt env id off length = .ok (slice (c id) off length)) ∧
    ∀ id data r s', Proper env s (.append id data) (.ok r) →
      perform env (.append id data) s = (.ok r, s') → InPlay env s'.fs.dev.trace →
      r = .id (c id).length := by
  obtain ⟨t, hrep, ha, -, hag⟩ := h.agrees hl hplay
  have hroot := root_of_run (fun _ _ _ hp => hp.1.1) h.run
  have hdata : ∀ id, s.fs.Known env id → (t.node id).kind = Inode.typeRegular →
      (t.node id).data = c id := fun id hknown hk =>
    hag id (used_of_known hl hrep ha.slots ha.linked hroot hknown) hk
  refine ⟨fun id in_ hknown hreg => ?_, fun id data r s' hp does hplay' => ?_⟩
  · rcases regular_run hrep id with ⟨e, hx, -⟩ | ⟨hid, hk, hx, -⟩
    · cases hreg.symm.trans hx
    · cases hreg.symm.trans hx
      have hnd := not_isDir_of_regular hk
      have hd := hdata id hknown hk
      refine ⟨?_, ?_, fun off length hlen => ?_⟩
      · unfold FS.readFile
        rw [hreg, ok_bind, hrep.getData hl hid, Node.blob_of_file hnd, hd]
      · rw [hrep.size hid, Node.blob_of_file hnd, hd]
      · rw [hrep.readAt hl hid hreg hnd, hd]
        by_cases hempty : length = 0 ∨ (c id).length ≤ off
        · rw [if_pos hempty]
          refine congrArg Except.ok (Eq.symm ?_)
          unfold slice
          rcases hempty with h0 | hle
          · rw [h0, List.take_zero]
          · rw [List.drop_eq_nil_of_le hle, List.take_nil]
        · rw [if_neg hempty, if_neg (by omega)]
  · obtain ⟨-, -, t', -, ⟨hchange, -⟩ | ⟨-, -, hno⟩⟩ :=
      proper_change hl h.run hrep ha hp hplay' does
    · have hknown : s.fs.Known env id := hp.2.1 id List.mem_cons_self
      generalize t'.view = v' at hchange
      cases hchange with
      | quiet hi => exact hi.elim
      | write hw hid hk =>
        cases hw
        rw [← hdata id hknown hk]
        rfl
      | create hcr => cases hcr
    · exact absurd trivial hno

/-- Two files that share a record, one of them written over at its end. -/
theorem files_are_lists_shared : ∃ past s c,
    Filed Env.plain Disk.Reliable past s c ∧ InPlay Env.plain s.fs.dev.trace ∧
      s.fs.readFile Env.plain 1 = .ok (c 1) ∧ s.fs.readFile Env.plain 2 = .ok (c 2) := by
  have hscript : ∃ x ∈ script Env.plain (fun v op => Fair v op ∧ Yields v op ∧ Rooted v op)
      [.create 0 "a", .create 0 "b", .writeFile 1 [7, 8], .writeFile 2 [7, 8], .writeAt 2 3 [9]]
      (fresh Env.plain) [], Rooted x.1.view (.link 0 "c" 1) ∧ Rooted x.1.view (.link 0 "c" 2) ∧
        1 < x.1.cap ∧ 2 < x.1.cap ∧ (x.1.node 1).kind = Inode.typeRegular ∧
        (x.1.node 2).kind = Inode.typeRegular ∧ Sketched x.1.paid ∧ x.1.paid.length ≤ 256 := by
    decide
  obtain ⟨⟨t, handles⟩, hscript, hone, htwo, hcap₁, hcap₂, hkind₁, hkind₂, hsketch, hfew⟩ := hscript
  obtain ⟨hclear, past, s, run, hhandles, htrack, hj⟩ := run_script (D := Disk.Reliable)
    (P := Proper Env.plain) (reliable_zeroed _ _)
    (fun _ _ h => h.1) (proper_of_fair Env.plain_lawful)
    (by simp [Plays, Answers]) (by decide) hscript hsketch hfew
  have hplay : InPlay Env.plain s.fs.dev.trace := (htrack.undisturbed hclear).1
  obtain ⟨c, hc⟩ := Filed.of_run run
  have hlists := (files_are_lists Env.plain_lawful hc hplay).1
  have hroot := root_of_run (fun _ _ _ hp => hp.1.1) run
  rw [← hhandles] at hj
  have hread : ∀ id, Rooted t.view (.link 0 "c" id) → id < t.cap →
      (t.node id).kind = Inode.typeRegular → s.fs.readFile Env.plain id = .ok (c id) := by
    intro id hrooted hid hkind
    have hknown := known_of_rooted Env.plain_lawful htrack.rep hj hroot hrooted id
      (by simp [Op.ids])
    have hreg : s.fs.regular id = .ok (s.fs.inodes.slots id) := by
      unfold FS.regular
      rw [htrack.rep.getInode_of_lt (by omega), ok_bind,
        (htrack.rep.nodes id (htrack.rep.lt (by omega))).kind, if_neg (not_not.mpr hkind)]
      rfl
    exact (hlists id _ hknown hreg).1
  exact ⟨past, s, c, hc, hplay, hread 1 hone hcap₁ hkind₁, hread 2 htwo hcap₂ hkind₂⟩

end Runs
end BloomFS
