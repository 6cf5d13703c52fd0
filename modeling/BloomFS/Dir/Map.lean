/-
A directory is a finite map from names to inodes.

`Op` lists the calls that change a directory and `bind` says what each means for a
partial function from names.  Along every sequence of calls the directory answers
as that function does, whatever the hashes, the filter shapes and the segment
capacity are.
-/
import BloomFS.Dir.Directory
import Mathlib.Data.Set.Card

namespace BloomFS
namespace Dir
namespace Directory

inductive Op where
  | add (name : String) (inode : Nat)
  | pushUnique (name : String) (inode : Nat)
  | delete (name : String)
  deriving Repr, DecidableEq

def step (env : Env) (d : Directory) : Op → Directory
  | .add name inode => (d.add env name inode).2
  | .pushUnique name inode => d.pushUnique env name inode
  | .delete name => (d.delete env name).2

def run (env : Env) (d : Directory) (ops : List Op) : Directory := ops.foldl (step env) d

/-- What a call means: only an insertion of an absent name takes effect. -/
def bind (m : String → Option Nat) : Op → String → Option Nat
  | .add name inode => if (m name).isSome then m else Function.update m name (some inode)
  | .pushUnique name inode => Function.update m name (some inode)
  | .delete name => Function.update m name none

/-- `pushUnique` may only be called for an absent name. -/
def Op.Allowed (m : String → Option Nat) : Op → Prop
  | .pushUnique name _ => m name = none
  | .add _ _ | .delete _ => True

def AllAllowed : (String → Option Nat) → List Op → Prop
  | _, [] => True
  | m, op :: ops => op.Allowed m ∧ AllAllowed (bind m op) ops

/-- The directory stores the entries `l`, which are the graph of `m`. -/
structure Means (env : Env) (d : Directory) (m : String → Option Nat) (l : List DirEntry) :
    Prop where
  holds : Holds env d l
  graph : ∀ name inode, m name = some inode ↔ ⟨name, inode⟩ ∈ l

variable {env : Env} {d : Directory} {m : String → Option Nat} {l : List DirEntry}

theorem Means.absent_iff (h : Means env d m l) {name : String} :
    m name = none ↔ ∀ e ∈ l, e.name ≠ name := by
  constructor
  · intro hm e he hname
    have hsome := (h.graph e.name e.inode).mpr he
    rw [hname, hm] at hsome
    cases hsome
  · intro habs
    cases hm : m name with
    | none => rfl
    | some inode => exact absurd rfl (habs _ ((h.graph name inode).mp hm))

theorem Means.find (h : Means env d m l) (name : String) : d.find env name = m name := by
  cases hm : m name with
  | none => exact h.holds.find_eq_none_iff.mpr (h.absent_iff.mp hm)
  | some inode => exact h.holds.find_eq_some_iff.mpr ((h.graph name inode).mp hm)

theorem Means.bound_names (h : Means env d m l) :
    {name | (m name).isSome} = ((l.map (·.name)).toFinset : Set String) := by
  ext name
  simp only [Set.mem_ofPred_eq, Option.isSome_iff_exists, h.graph, List.coe_toFinset, List.mem_map]
  constructor
  · rintro ⟨inode, he⟩
    exact ⟨_, he, rfl⟩
  · rintro ⟨e, he, rfl⟩
    exact ⟨e.inode, he⟩

theorem Means.insert {d' : Directory} (h : Means env d m l) {name : String} (hm : m name = none)
    (inode : Nat) (hd : Holds env d' (⟨name, inode⟩ :: l)) :
    Means env d' (Function.update m name (some inode)) (⟨name, inode⟩ :: l) where
  holds := hd
  graph n id := by
    rw [List.mem_cons, DirEntry.mk.injEq, ← h.graph]
    by_cases hn : n = name
    · subst hn
      rw [Function.update_self, hm]
      simp [eq_comm]
    · rw [Function.update_of_ne hn]
      simp [hn]

theorem Means.erase (h : Means env d m l) {name : String} {inode : Nat} (hm : m name = some inode) :
    Means env (d.delete env name).2 (Function.update m name none) (l.erase ⟨name, inode⟩) where
  holds := h.holds.delete ((h.graph name inode).mp hm)
  graph n id := by
    have hnodup : l.Nodup := List.Nodup.of_map _ h.holds.distinct
    rw [hnodup.mem_erase_iff, ← h.graph, ne_eq, DirEntry.mk.injEq]
    by_cases hn : n = name
    · subst hn
      rw [Function.update_self, hm]
      simp [eq_comm]
    · rw [Function.update_of_ne hn]
      simp [hn]

theorem Means.of_step (h : Means env d m l) {op : Op} (hop : op.Allowed m) :
    ∃ l', Means env (step env d op) (bind m op) l' := by
  cases op with
  | add name inode =>
    show ∃ l', Means env (d.add env name inode).2
      (if (m name).isSome then m else Function.update m name (some inode)) l'
    cases hm : m name with
    | none =>
      obtain ⟨d', hadd, hd⟩ := h.holds.add (h.absent_iff.mp hm) inode
      rw [hadd]
      exact ⟨_, h.insert hm inode hd⟩
    | some old =>
      rw [h.holds.add_present ((h.graph name old).mp hm) inode]
      exact ⟨l, h⟩
  | pushUnique name inode =>
    exact ⟨_, h.insert hop inode (h.holds.pushUnique (h.absent_iff.mp hop) inode)⟩
  | delete name =>
    cases hm : m name with
    | none =>
      have hsame : bind m (.delete name) = m := by
        show Function.update m name none = m
        rw [← hm, Function.update_eq_self]
      have hdir : step env d (.delete name) = d :=
        congrArg Prod.snd (h.holds.delete_absent (h.absent_iff.mp hm))
      rw [hsame, hdir]
      exact ⟨l, h⟩
    | some inode => exact ⟨_, h.erase hm⟩

theorem Means.of_run {ops : List Op} :
    ∀ {d : Directory} {m : String → Option Nat} {l : List DirEntry}, Means env d m l →
      AllAllowed m ops → ∃ l', Means env (run env d ops) (ops.foldl bind m) l' := by
  induction ops with
  | nil =>
    intro d m l h _
    exact ⟨l, h⟩
  | cons op ops ih =>
    intro d m l h hall
    obtain ⟨l', h'⟩ := h.of_step hall.1
    exact ih h' hall.2

theorem means_withCap (env : Env) (capacity : Nat) :
    Means env (withCap env capacity) (fun _ => none) [] where
  holds := withCap_holds env capacity
  graph name inode := by simp

/-- Along every sequence of calls a directory is the finite map that the calls
describe. -/
theorem directory_is_map (env : Env) (capacity : Nat) (ops : List Op)
    (hops : AllAllowed (fun _ => none) ops) (d : Directory) (m : String → Option Nat)
    (hd : d = run env (withCap env capacity) ops) (hm : m = ops.foldl bind (fun _ => none)) :
    (∀ name, d.find env name = m name) ∧
    (∀ name inode, ((d.add env name inode).1 = false ↔ (m name).isSome) ∧
      ((m name).isSome → (d.add env name inode).2 = d)) ∧
    (∀ name, (d.delete env name).1 = true ↔ (m name).isSome) ∧
    d.len = {name | (m name).isSome}.ncard ∧
    (d.entries.map (·.name)).Nodup ∧
    ∀ e, e ∈ d.entries ↔ m e.name = some e.inode := by
  subst hd hm
  obtain ⟨l, h⟩ := (means_withCap env capacity).of_run hops
  have hperm := h.holds.perm
  refine ⟨h.find, fun name inode => ?_, fun name => ?_, ?_, ?_, fun e => ?_⟩
  · cases hb : ops.foldl bind (fun _ => none) name with
    | none =>
      obtain ⟨d', hadd, -⟩ := h.holds.add (h.absent_iff.mp hb) inode
      rw [hadd]
      simp
    | some old =>
      rw [h.holds.add_present ((h.graph name old).mp hb) inode]
      simp
  · cases hb : ops.foldl bind (fun _ => none) name with
    | none =>
      rw [h.holds.delete_absent (h.absent_iff.mp hb)]
      simp
    | some old =>
      rw [h.holds.delete_found ((h.graph name old).mp hb)]
      simp
  · rw [h.holds.len, h.bound_names, Set.ncard_coe_finset,
      List.toFinset_card_of_nodup h.holds.distinct, List.length_map]
  · exact ((hperm.map _).nodup_iff).mpr h.holds.distinct
  · rw [h.graph]
    exact hperm.mem_iff

/-- Segments of one name each, with a refused insertion and a removal. -/
theorem directory_is_map_overflow :
    AllAllowed (fun _ => none)
      [.add "a" 1, .pushUnique "b" 2, .add "a" 3, .delete "a", .add "c" 4] ∧
    (run Env.plain (withCap Env.plain 1)
      [.add "a" 1, .pushUnique "b" 2, .add "a" 3, .delete "a", .add "c" 4]).find Env.plain "b" =
        some 2 := by
  have hops : AllAllowed (fun _ => none)
      [.add "a" 1, .pushUnique "b" 2, .add "a" 3, .delete "a", .add "c" 4] := by
    simp [AllAllowed, Op.Allowed, bind]
  refine ⟨hops, ?_⟩
  rw [(directory_is_map Env.plain 1 _ hops _ _ rfl rfl).1]
  simp [bind]

end Directory
end Dir
end BloomFS
