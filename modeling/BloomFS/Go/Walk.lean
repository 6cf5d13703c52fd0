/-
The gate that a walk builds.

The walk marks the directories it comes to and lists their names.  A directory that is marked
is finished when all its names are listed and the directories among them are marked.  The gate
then lets the names of the marked directories pass.
-/
import BloomFS.Go.Sound

namespace BloomFS
namespace Go

open Dir

variable {L : Lib} {f : FS L} {id d : Nat} {w w' : Found} {walk : Nat → Found → Found} {n : Nat}

/-- Some entries of directory `d` are listed, and the directories among them are marked. -/
def FS.Done (f : FS L) (w : Found) (d : Nat) (es : List DirEntry) : Prop :=
  ∀ e ∈ es, (d, e.name) ∈ w.pairs ∧ (f.isDir e.inode = true → e.inode ∈ w.seen)

/-- A walk goes from `w` to `w'`, and what it marks it finishes. -/
structure FS.Grows (f : FS L) (w w' : Found) : Prop where
  seen : w.seen ⊆ w'.seen
  pairs : w.pairs ⊆ w'.pairs
  done : ∀ d ∈ w'.seen, d ∉ w.seen → f.Done w' d (f.entries d)

theorem FS.Grows.refl : f.Grows w w :=
  ⟨fun _ h => h, fun _ h => h, fun _ h hno => absurd h hno⟩

theorem FS.Done.mono {es : List DirEntry} (h : f.Done w d es) (hg : f.Grows w w') :
    f.Done w' d es :=
  fun e he => ⟨hg.pairs (h e he).1, fun hd => hg.seen ((h e he).2 hd)⟩

theorem FS.Grows.trans {w'' : Found} (h : f.Grows w w') (h' : f.Grows w' w'') : f.Grows w w'' := by
  refine ⟨fun _ hd => h'.seen (h.seen hd), fun _ hp => h'.pairs (h.pairs hp), fun d hd hno => ?_⟩
  by_cases hmid : d ∈ w'.seen
  · exact (h.done d hmid hno).mono h'
  · exact h'.done d hd hmid

theorem look_eq (hc : Coherent f) (hid : f.isDir id = true) :
    f.look id = some (f.entries id) := by
  unfold FS.look
  cases hres : f.dcache id with
  | some h => exact congrArg some (hc.entries hres).symm
  | none =>
    obtain ⟨es, hes⟩ := Option.ne_none_iff_exists'.mp (hc.readable id hid)
    unfold FS.entries
    rw [if_pos hid, hes]
    exact if_pos (isDir_iff.mp hid)

/-- The directories that a walk has not marked. -/
def FS.unseen (f : FS L) (w : Found) : Finset Nat := Finset.range f.cap \ w.seen

/-- A walk that finishes what it marks, from any state with fewer than `n` directories left. -/
def FS.Finishes (f : FS L) (walk : Nat → Found → Found) (n : Nat) : Prop :=
  ∀ id w, f.isDir id = true → (f.unseen w).card < n →
    f.Grows w (walk id w) ∧ id ∈ (walk id w).seen

theorem FS.Finishes.visit (hwalk : f.Finishes walk n) (hw : (f.unseen w).card < n) (id : Nat)
    (e : DirEntry) :
    f.Grows w (f.visit walk id w e) ∧ f.Done (f.visit walk id w e) id [e] := by
  have hlist : f.Grows w { w with pairs := w.pairs ++ [(id, e.name)] } :=
    ⟨fun _ h => h, fun _ h => List.mem_append_left _ h, fun _ h hno => absurd h hno⟩
  have hnamed : (id, e.name) ∈ w.pairs ++ [(id, e.name)] :=
    List.mem_append_right _ (List.mem_singleton_self _)
  unfold FS.visit FS.Done
  simp only [List.forall_mem_singleton]
  by_cases hd : f.isDir e.inode = true
  · rw [if_pos hd]
    obtain ⟨hgrows, hmem⟩ := hwalk e.inode { w with pairs := w.pairs ++ [(id, e.name)] } hd hw
    exact ⟨hlist.trans hgrows, hgrows.pairs hnamed, fun _ => hmem⟩
  · rw [if_neg hd]
    exact ⟨hlist, hnamed, fun h => absurd h hd⟩

theorem FS.Finishes.visits (hwalk : f.Finishes walk n) (id : Nat) (es : List DirEntry)
    (hw : (f.unseen w).card < n) :
    f.Grows w (es.foldl (f.visit walk id) w) ∧ f.Done (es.foldl (f.visit walk id) w) id es := by
  induction es generalizing w with
  | nil => exact ⟨.refl, fun _ he => absurd he List.not_mem_nil⟩
  | cons e es ih =>
    obtain ⟨hgrows, hfirst⟩ := hwalk.visit hw id e
    have hfew : (f.unseen (f.visit walk id w e)).card < n := Nat.lt_of_le_of_lt
      (Finset.card_le_card (Finset.sdiff_subset_sdiff subset_rfl hgrows.seen)) hw
    obtain ⟨hgrows', hrest⟩ := ih hfew
    refine ⟨hgrows.trans hgrows', fun e' he' => ?_⟩
    rcases List.mem_cons.mp he' with rfl | he'
    · exact hfirst.mono hgrows' e' (List.mem_singleton_self _)
    · exact hrest e' he'

theorem unseen_insert (hid : f.isDir id = true) (hno : id ∉ w.seen) :
    (f.unseen { w with seen := insert id w.seen }).card < (f.unseen w).card := by
  have hmem : id ∈ f.unseen w :=
    Finset.mem_sdiff.mpr ⟨Finset.mem_range.mpr (isDir_iff.mp hid).1, hno⟩
  unfold FS.unseen at hmem ⊢
  rw [Finset.sdiff_insert]
  exact Finset.card_erase_lt_of_mem hmem

/-- The fuel outlasts the directories that are left, so it never runs out. -/
theorem finishes_walk (hc : Coherent f) (fuel : Nat) : f.Finishes (f.walk fuel) fuel := by
  induction fuel with
  | zero => exact fun _ _ _ hlt => absurd hlt (Nat.not_lt_zero _)
  | succ fuel ih =>
    intro id w hid hlt
    unfold FS.walk
    by_cases hseen : id ∈ w.seen
    · rw [if_pos hseen]
      exact ⟨.refl, hseen⟩
    rw [if_neg hseen, look_eq hc hid]
    dsimp only
    have hless := unseen_insert hid hseen
    obtain ⟨hgrows, hdone⟩ := ih.visits id (f.entries id)
      (w := { w with seen := insert id w.seen }) (by omega)
    refine ⟨⟨fun x hx => hgrows.seen (Finset.mem_insert_of_mem hx), hgrows.pairs,
      fun x hx hno => ?_⟩, hgrows.seen (Finset.mem_insert_self ..)⟩
    by_cases heq : x = id
    · subst heq
      exact hdone
    · exact hgrows.done x hx fun h => (Finset.mem_insert.mp h).elim heq hno

/-- The names of the directories that the walk marks are those that the gate lets pass. -/
theorem held_walkBuildGate (hL : L.Lawful) (hc : Coherent f) :
    Held { f with gate := f.walkBuildGate } := by
  have hc' : Coherent { f with gate := f.walkBuildGate } := ⟨hc.quiet, hc.cached, hc.readable⟩
  have hlisted : ∀ w : Found, (w.pairs.foldl (fun g p => g.add p.1 p.2)
      (Gate.new L w.pairs.length)).Complete fun d name => (d, name) ∈ w.pairs := fun w =>
    (Gate.complete_foldl hL _ (Gate.complete_new L _)).mono fun _ _ hp => .inr hp
  by_cases hroot : f.isDir f.root = true
  · have hcard : (f.unseen ⟨∅, []⟩).card < f.cap + 1 := by
      refine Nat.lt_succ_of_le ((Finset.card_le_card Finset.sdiff_subset).trans ?_)
      rw [Finset.card_range]
    obtain ⟨hgrows, hmem⟩ := finishes_walk hc (f.cap + 1) f.root ⟨∅, []⟩ hroot hcard
    have hdone := fun d hd => hgrows.done d hd (Finset.notMem_empty d)
    refine ⟨(f.walk (f.cap + 1) f.root ⟨∅, []⟩).seen, hc', hmem,
      fun a ha e he hb => (hdone a ha e he).2 hb, ?_⟩
    unfold FS.walkBuildGate
    rw [if_pos hroot]
    refine (hlisted _).mono fun a n hn => ?_
    obtain ⟨ha, e, he, rfl⟩ := hn
    exact (hdone a ha e he).1
  · -- the root lists nothing
    have hnone : ∀ e, e ∉ f.entries f.root := fun e he => by
      unfold FS.entries at he
      rw [if_neg hroot] at he
      cases he
    refine ⟨{f.root}, hc', rfl, fun a ha e he => ?_, ?_⟩
    · cases ha
      exact absurd he (hnone e)
    · unfold FS.walkBuildGate
      rw [if_neg hroot]
      refine (hlisted ⟨∅, []⟩).mono fun a n hn => ?_
      obtain ⟨rfl, e, he, -⟩ := hn
      exact absurd he (hnone e)

end Go
end BloomFS
