/-
A directory is a list of fixed-capacity segments, each a hash index of names
behind a Bloom filter.

`Holds env d l` says that `d` stores exactly the entries `l`, no name twice, and
that no filter has a false negative.  Each operation is specified against the
plain list.
-/
import BloomFS.Bloom.Filter
import BloomFS.Lib.Utf8
import Mathlib.Data.List.AList

namespace BloomFS
namespace Dir

open Bloom

structure DirEntry where
  name : String
  inode : Nat
  deriving DecidableEq, Repr

def maxFilesPerSegment : Nat := 4000

def nameHash (env : Env) (name : String) : UInt64 := env.xxh3 (Utf8.encode name)

/-- Remove position `pos`, moving the last element into its place. -/
def swapRemove {α : Type} (l : List α) (pos : Nat) : List α :=
  match l.getLast? with
  | none => []
  | some last => (l.set pos last).dropLast

structure Segment where
  filter : BlockedFilter
  index : AList (fun _ : UInt64 => List DirEntry)
  count : Nat
  cap : Nat
  tomb : Nat

namespace Segment

variable (env : Env)

def new (capacity : Nat) : Segment where
  filter := BlockedFilter.newBlockedTuned env capacity
  index := ∅
  count := 0
  cap := capacity
  tomb := 0

def full (s : Segment) : Bool := decide (s.cap ≤ s.count)

def add (s : Segment) (h : UInt64) (name : String) (inode : Nat) : Segment :=
  { s with filter := s.filter.add env (Utf8.encode name)
           index := s.index.insert h ((s.index.lookup h).getD [] ++ [⟨name, inode⟩])
           count := s.count + 1 }

def find (s : Segment) (h : UInt64) (name : String) : Option Nat :=
  if !s.filter.test env (Utf8.encode name) then none
  else match s.index.lookup h with
    | none => none
    | some chain => (chain.find? (·.name = name)).map (·.inode)

def rebuildThreshold (s : Segment) : Nat := max (s.cap / 4) 1

/-- Every entry of the segment, chain by chain. -/
def items (s : Segment) : List DirEntry := s.index.entries.flatMap (·.2)

def rebuildFilter (s : Segment) : Segment :=
  { s with tomb := 0
           filter := (s.items.map fun e => Utf8.encode e.name).foldl (BlockedFilter.add env)
             (BlockedFilter.newBlockedTuned env s.cap) }

def remove (s : Segment) (h : UInt64) (name : String) : Bool × Segment :=
  match s.index.lookup h with
  | none => (false, s)
  | some chain =>
      match chain.findIdx? (·.name = name) with
      | none => (false, s)
      | some pos =>
          let chain := swapRemove chain pos
          let s := { s with
            index := if chain.isEmpty then s.index.erase h else s.index.insert h chain
            count := s.count - 1
            tomb := s.tomb + 1 }
          (true, if s.rebuildThreshold ≤ s.tomb then s.rebuildFilter env else s)

end Segment

structure Directory where
  segments : List Segment
  cap : Nat

namespace Directory

variable (env : Env)

def withCap (capacity : Nat) : Directory := ⟨[Segment.new env capacity], capacity⟩

def new : Directory := withCap env maxFilesPerSegment

def findIn (h : UInt64) (name : String) (segs : List Segment) : Option Nat :=
  segs.findSome? (fun s => s.find env h name)

def find (d : Directory) (name : String) : Option Nat :=
  findIn env (nameHash env name) name d.segments

/-- Put the entry into the first segment with room, or into a new one. -/
def place (cap : Nat) (h : UInt64) (name : String) (inode : Nat) : List Segment → List Segment
  | [] => [(Segment.new env cap).add env h name inode]
  | s :: segs =>
      if s.full then s :: place cap h name inode segs else s.add env h name inode :: segs

def add (d : Directory) (name : String) (inode : Nat) : Bool × Directory :=
  let h := nameHash env name
  if (findIn env h name d.segments).isSome then (false, d)
  else (true, { d with segments := place env d.cap h name inode d.segments })

/-- Link a name that is known to be absent, without looking for it. -/
def pushUnique (d : Directory) (name : String) (inode : Nat) : Directory :=
  { d with segments := place env d.cap (nameHash env name) name inode d.segments }

/-- Remove the name from the first segment that has it. -/
def removeFrom (h : UInt64) (name : String) : List Segment → Bool × List Segment
  | [] => (false, [])
  | s :: segs =>
      match s.remove env h name with
      | (true, s') => (true, s' :: segs)
      | (false, s') =>
          let (found, segs') := removeFrom h name segs
          (found, s' :: segs')

def delete (d : Directory) (name : String) : Bool × Directory :=
  let (found, segs) := removeFrom env (nameHash env name) name d.segments
  (found, { d with segments := segs })

def len (d : Directory) : Nat := (d.segments.map (·.count)).sum

def isEmpty (d : Directory) : Bool := d.len = 0

/-- Every binding, segment by segment. -/
def entries (d : Directory) : List DirEntry := d.segments.flatMap Segment.items

end Directory

/-! ## Segments -/

theorem swapRemove_perm {α : Type} {l : List α} {pos : Nat} (h : pos < l.length) :
    (l.get ⟨pos, h⟩ :: swapRemove l pos).Perm l := by
  obtain ⟨init, last, rfl⟩ : ∃ init last, l = init ++ [last] :=
    ⟨l.dropLast, l.getLast (by intro he; rw [he] at h; exact absurd h (Nat.not_lt_zero _)),
      (List.dropLast_append_getLast _).symm⟩
  have hlast : (init ++ [last]).getLast? = some last := by simp
  unfold swapRemove
  rw [hlast]
  show ((init ++ [last]).get ⟨pos, h⟩ :: ((init ++ [last]).set pos last).dropLast).Perm _
  rw [List.get_eq_getElem]
  by_cases hpos : pos < init.length
  · rw [List.set_append_left _ _ hpos, List.dropLast_concat, List.getElem_append_left hpos]
    have hsplit : init = init.take pos ++ init[pos] :: init.drop (pos + 1) := by
      rw [List.getElem_cons_drop, List.take_append_drop]
    have hset : init.set pos last = init.take pos ++ last :: init.drop (pos + 1) := by
      rw [List.set_eq_take_append_cons_drop, if_pos hpos]
    rw [hset]
    calc (init[pos] :: (init.take pos ++ last :: init.drop (pos + 1))).Perm
          (init[pos] :: (last :: (init.take pos ++ init.drop (pos + 1)))) :=
          List.Perm.cons _ List.perm_middle
      _ |>.Perm (last :: (init[pos] :: (init.take pos ++ init.drop (pos + 1)))) := List.Perm.swap ..
      _ |>.Perm (last :: (init.take pos ++ init[pos] :: init.drop (pos + 1))) :=
          List.Perm.cons _ List.perm_middle.symm
      _ |>.Perm (init ++ [last]) := by
          rw [← hsplit]
          exact (List.perm_append_singleton last init).symm
  · have hp : pos = init.length := by
      rw [List.length_append, List.length_singleton] at h
      omega
    subst hp
    rw [List.set_append_right _ _ (Nat.le_refl _), Nat.sub_self]
    simp only [List.set_cons_zero, List.dropLast_concat, List.getElem_concat_length]
    exact (List.perm_append_singleton last init).symm

/-- The chain under `h`, pulled to the front. -/
theorem flatMap_kerase_perm (m : AList (fun _ : UInt64 => List DirEntry)) (h : UInt64) :
    ((m.lookup h).getD [] ++ (m.entries.kerase h).flatMap (·.2)).Perm
    (m.entries.flatMap (·.2)) := by
  by_cases hk : h ∈ m
  · obtain ⟨c, l₁, l₂, -, hl, hker⟩ := List.exists_of_kerase (AList.mem_keys.mp hk)
    have hlook : m.lookup h = some c :=
      AList.mem_lookup_iff.mpr (by rw [hl]; exact List.mem_append_right _ List.mem_cons_self)
    rw [hlook, hker, hl]
    simp only [Option.getD_some, List.flatMap_append, List.flatMap_cons]
    rw [← List.append_assoc]
    refine List.Perm.trans (List.Perm.append_right _ List.perm_append_comm) ?_
    rw [List.append_assoc]
  · have hlook : m.lookup h = none := AList.lookup_eq_none.mpr hk
    rw [hlook, List.kerase_of_notMem_keys (fun hm => hk (AList.mem_keys.mpr hm))]
    exact List.Perm.refl _

namespace Segment

variable {env : Env}

/-- Chains sit under the hash of their names, the filter knows every name, and
the count is right. -/
structure Good (env : Env) (s : Segment) : Prop where
  hashed : ∀ h chain, s.index.lookup h = some chain → ∀ e ∈ chain, nameHash env e.name = h
  filtered : ∀ e ∈ s.items, s.filter.test env (Utf8.encode e.name) = true
  counted : s.count = s.items.length

variable {s : Segment}

theorem mem_items_of_chain {h : UInt64} {chain : List DirEntry} {e : DirEntry}
    (hlook : s.index.lookup h = some chain) (he : e ∈ chain) : e ∈ s.items :=
  List.mem_flatMap.mpr ⟨⟨h, chain⟩, AList.mem_lookup_iff.mp hlook, he⟩

theorem Good.chain (hs : s.Good env) {e : DirEntry} (he : e ∈ s.items) :
    ∃ chain, s.index.lookup (nameHash env e.name) = some chain ∧ e ∈ chain := by
  obtain ⟨⟨h, chain⟩, hmem, he⟩ := List.mem_flatMap.mp he
  have hlook : s.index.lookup h = some chain := AList.mem_lookup_iff.mpr hmem
  rw [hs.hashed h chain hlook e he]
  exact ⟨chain, hlook, he⟩

theorem new_good (env : Env) (capacity : Nat) : (new env capacity).Good env where
  hashed h chain hlook := by
    have : (∅ : AList fun _ : UInt64 => List DirEntry).lookup h = some chain := hlook
    rw [AList.lookup_empty] at this
    cases this
  filtered e he := by cases he
  counted := rfl

/-- Names determine entries. -/
def Distinct (l : List DirEntry) : Prop := (l.map (·.name)).Nodup

theorem Distinct.eq {l : List DirEntry} (hd : Distinct l) {e e' : DirEntry} (he : e ∈ l)
    (he' : e' ∈ l) (hname : e.name = e'.name) : e = e' :=
  List.inj_on_of_nodup_map hd he he' hname

theorem Distinct.perm {l l' : List DirEntry} (hd : Distinct l) (hp : l.Perm l') : Distinct l' :=
  ((hp.map _).nodup_iff).mp hd

theorem Distinct.find_name {l : List DirEntry} (hd : Distinct l) {e : DirEntry} :
    l.find? (·.name = e.name) = some e ↔ e ∈ l := by
  refine ⟨List.mem_of_find?_eq_some, fun he => ?_⟩
  cases hf : l.find? (·.name = e.name) with
  | none =>
    have := List.find?_eq_none.mp hf e he
    simp at this
  | some e' =>
    have hname : e'.name = e.name := by simpa using List.find?_some hf
    rw [hd.eq (List.mem_of_find?_eq_some hf) he hname]

theorem find_eq_some_iff (hs : s.Good env) (hd : Distinct s.items) {name : String} {id : Nat} :
    s.find env (nameHash env name) name = some id ↔ ⟨name, id⟩ ∈ s.items := by
  unfold find
  constructor
  · intro h
    by_cases ht : s.filter.test env (Utf8.encode name) = true
    · rw [ht] at h
      cases hlook : s.index.lookup (nameHash env name) with
      | none => rw [hlook] at h; cases h
      | some chain =>
        rw [hlook] at h
        obtain ⟨e, he, rfl⟩ := Option.map_eq_some_iff.mp h
        have hname : e.name = name := by simpa using List.find?_some he
        rw [← hname]
        exact mem_items_of_chain hlook (List.mem_of_find?_eq_some he)
    · rw [Bool.not_eq_true] at ht
      rw [ht] at h
      cases h
  · intro he
    have ht : s.filter.test env (Utf8.encode name) = true := hs.filtered ⟨name, id⟩ he
    obtain ⟨chain, hlook, hin⟩ := hs.chain he
    dsimp only at hlook
    rw [ht, hlook]
    show (chain.find? _).map _ = _
    cases hf : chain.find? (·.name = name) with
    | none =>
      have := List.find?_eq_none.mp hf _ hin
      simp at this
    | some e =>
      have hname : e.name = name := by simpa using List.find?_some hf
      have heq := hd.eq (mem_items_of_chain hlook (List.mem_of_find?_eq_some hf)) he hname
      rw [heq]
      rfl

theorem add_spec (hs : s.Good env) (name : String) (id : Nat) :
    (s.add env (nameHash env name) name id).Good env ∧
      (⟨name, id⟩ :: s.items).Perm (s.add env (nameHash env name) name id).items := by
  have hperm : (⟨name, id⟩ :: s.items).Perm (s.add env (nameHash env name) name id).items := by
    show List.Perm _ ((s.index.insert _ _).entries.flatMap (·.2))
    rw [AList.entries_insert, List.flatMap_cons]
    have hbase := flatMap_kerase_perm s.index (nameHash env name)
    refine List.Perm.trans (List.Perm.cons _ hbase.symm) ?_
    rw [List.append_assoc]
    exact List.perm_middle.symm
  refine ⟨⟨?_, ?_, ?_⟩, hperm⟩
  · intro h chain hlook e he
    change (s.index.insert _ _).lookup h = some chain at hlook
    by_cases hh : h = nameHash env name
    · subst hh
      rw [AList.lookup_insert] at hlook
      cases hlook
      rcases List.mem_append.mp he with he | he
      · cases hold : s.index.lookup (nameHash env name) with
        | none => rw [hold] at he; cases he
        | some c =>
          rw [hold] at he
          exact hs.hashed _ c hold e he
      · rw [List.mem_singleton.mp he]
    · rw [AList.lookup_insert_ne hh] at hlook
      exact hs.hashed h chain hlook e he
  · intro e he
    rcases List.mem_cons.mp (hperm.mem_iff.mpr he) with rfl | he
    · exact BlockedFilter.test_add_self _
    · exact BlockedFilter.test_add (hs.filtered e he)
  · show s.count + 1 = _
    rw [← hperm.length_eq, List.length_cons, hs.counted]

theorem rebuildFilter_good (hs : ∀ h chain, s.index.lookup h = some chain →
    ∀ e ∈ chain, nameHash env e.name = h) (hc : s.count = s.items.length) :
    (s.rebuildFilter env).Good env where
  hashed := hs
  filtered _ he := BlockedFilter.test_foldl_add (.inr (List.mem_map_of_mem he))
  counted := hc

/-- The index with one chain shortened, and dropped when it became empty. -/
def shorten (m : AList (fun _ : UInt64 => List DirEntry)) (h : UInt64) (chain : List DirEntry) :
    AList (fun _ : UInt64 => List DirEntry) :=
  if chain.isEmpty then m.erase h else m.insert h chain

theorem shorten_items (m : AList (fun _ : UInt64 => List DirEntry)) (h : UInt64)
    (chain : List DirEntry) :
    (shorten m h chain).entries.flatMap (·.2) = chain ++ (m.entries.kerase h).flatMap (·.2) := by
  unfold shorten
  cases chain with
  | nil => rfl
  | cons e chain =>
    show ((m.insert h (e :: chain)).entries.flatMap (·.2)) = _
    rw [AList.entries_insert, List.flatMap_cons]

theorem shorten_lookup {m : AList (fun _ : UInt64 => List DirEntry)} {h h' : UInt64}
    {chain c : List DirEntry} (hlook : (shorten m h chain).lookup h' = some c) :
    h' = h ∧ c = chain ∨ m.lookup h' = some c := by
  unfold shorten at hlook
  by_cases hh : h' = h
  · subst hh
    split at hlook
    · rw [AList.lookup_erase] at hlook
      cases hlook
    · rw [AList.lookup_insert] at hlook
      exact .inl ⟨rfl, (Option.some.inj hlook).symm⟩
  · split at hlook
    · rw [AList.lookup_erase_ne hh] at hlook
      exact .inr hlook
    · rw [AList.lookup_insert_ne hh] at hlook
      exact .inr hlook

theorem remove_of_absent {name : String} (h : ∀ e ∈ s.items, e.name ≠ name) :
    s.remove env (nameHash env name) name = (false, s) := by
  unfold remove
  cases hlook : s.index.lookup (nameHash env name) with
  | none => rfl
  | some chain =>
    have hnone : chain.findIdx? (·.name = name) = none := by
      rw [List.findIdx?_eq_none_iff]
      intro e he
      simpa using h e (mem_items_of_chain hlook he)
    dsimp only
    rw [hnone]

theorem remove_of_mem (hs : s.Good env) (hd : Distinct s.items) {name : String} {id : Nat}
    (h : ⟨name, id⟩ ∈ s.items) :
    ∃ s', s.remove env (nameHash env name) name = (true, s') ∧ s'.Good env ∧
      (⟨name, id⟩ :: s'.items).Perm s.items := by
  obtain ⟨chain, hlook, hin⟩ := hs.chain h
  dsimp only at hlook
  cases hidx : chain.findIdx? (·.name = name) with
  | none =>
    have := List.findIdx?_eq_none_iff.mp hidx _ hin
    simp at this
  | some pos =>
    obtain ⟨hpos, hname, -⟩ := List.findIdx?_eq_some_iff_getElem.mp hidx
    have hget : chain.get ⟨pos, hpos⟩ = ⟨name, id⟩ := by
      refine hd.eq (mem_items_of_chain hlook (List.getElem_mem hpos)) h ?_
      simpa using hname
    have hswap := swapRemove_perm hpos
    rw [hget] at hswap
    have hsub : ∀ e ∈ swapRemove chain pos, e ∈ chain :=
      fun e he => hswap.mem_iff.mp (List.mem_cons_of_mem _ he)
    -- the segment before the filter is looked at
    obtain ⟨s₁, hs₁⟩ : ∃ s₁ : Segment, s₁ = { s with
        index := shorten s.index (nameHash env name) (swapRemove chain pos)
        count := s.count - 1
        tomb := s.tomb + 1 } := ⟨_, rfl⟩
    have hperm : (⟨name, id⟩ :: s₁.items).Perm s.items := by
      have hitems : s₁.items = swapRemove chain pos ++
          (s.index.entries.kerase (nameHash env name)).flatMap (·.2) := by
        rw [hs₁]
        exact shorten_items _ _ _
      have hbase := flatMap_kerase_perm s.index (nameHash env name)
      rw [hlook] at hbase
      rw [hitems, ← List.cons_append]
      exact (hswap.append_right _).trans hbase
    have hhashed : ∀ h chain, s₁.index.lookup h = some chain →
        ∀ e ∈ chain, nameHash env e.name = h := by
      intro h' c hc e he
      rw [hs₁] at hc
      rcases shorten_lookup hc with ⟨rfl, rfl⟩ | hold
      · exact hs.hashed _ chain hlook e (hsub e he)
      · exact hs.hashed h' c hold e he
    have hcount : s₁.count = s₁.items.length := by
      have hlen := hperm.length_eq
      rw [List.length_cons] at hlen
      have hc : s₁.count = s.count - 1 := by rw [hs₁]
      rw [hc, hs.counted]
      omega
    have hremove : s.remove env (nameHash env name) name =
        (true, if s₁.rebuildThreshold ≤ s₁.tomb then s₁.rebuildFilter env else s₁) := by
      unfold remove
      rw [hlook]
      dsimp only
      rw [hidx, hs₁]
      rfl
    rw [hremove]
    by_cases hreb : s₁.rebuildThreshold ≤ s₁.tomb
    · rw [if_pos hreb]
      exact ⟨_, rfl, rebuildFilter_good hhashed hcount, hperm⟩
    · rw [if_neg hreb]
      refine ⟨_, rfl, ⟨hhashed, fun e he => ?_, hcount⟩, hperm⟩
      have hfil : s₁.filter = s.filter := by rw [hs₁]
      rw [hfil]
      exact hs.filtered e (hperm.mem_iff.mp (List.mem_cons_of_mem _ he))

end Segment

/-! ## Directories -/

namespace Directory

open Segment (Distinct)

variable {env : Env} {d : Directory} {l : List DirEntry}

/-- The directory stores exactly the entries `l`. -/
structure Holds (env : Env) (d : Directory) (l : List DirEntry) : Prop where
  good : ∀ s ∈ d.segments, s.Good env
  perm : (d.segments.flatMap Segment.items).Perm l
  distinct : Distinct l

theorem Holds.of_perm {l' : List DirEntry} (h : Holds env d l) (hp : l.Perm l') : Holds env d l' :=
  ⟨h.good, h.perm.trans hp, h.distinct.perm hp⟩

theorem withCap_holds (env : Env) (capacity : Nat) : Holds env (withCap env capacity) [] where
  good s hs := by
    rw [List.mem_singleton.mp hs]
    exact Segment.new_good env _
  perm := List.Perm.refl _
  distinct := List.nodup_nil

theorem new_holds (env : Env) : Holds env (new env) [] := withCap_holds env _

theorem Holds.segment_distinct (h : Holds env d l) {s : Segment} (hs : s ∈ d.segments) :
    Distinct s.items := by
  have hall : Distinct (d.segments.flatMap Segment.items) := h.distinct.perm h.perm.symm
  refine List.Nodup.sublist (List.Sublist.map _ ?_) hall
  obtain ⟨a, b, hab⟩ := List.append_of_mem hs
  rw [hab, List.flatMap_append, List.flatMap_cons]
  exact (List.sublist_append_left _ _).trans (List.sublist_append_right _ _)

theorem Holds.find_eq_some_iff (h : Holds env d l) {name : String} {id : Nat} :
    d.find env name = some id ↔ ⟨name, id⟩ ∈ l := by
  have hmem : ∀ {s : Segment} {id : Nat}, s ∈ d.segments →
      s.find env (nameHash env name) name = some id → (⟨name, id⟩ : DirEntry) ∈ l := by
    intro s id hs hf
    have hin := (Segment.find_eq_some_iff (h.good s hs) (h.segment_distinct hs)).mp hf
    exact h.perm.mem_iff.mp (List.mem_flatMap.mpr ⟨s, hs, hin⟩)
  constructor
  · intro hf
    obtain ⟨s, hs, hfs⟩ := List.exists_of_findSome?_eq_some hf
    exact hmem hs hfs
  · intro hin
    obtain ⟨s, hs, he⟩ := List.mem_flatMap.mp (h.perm.mem_iff.mpr hin)
    have hfs := (Segment.find_eq_some_iff (h.good s hs) (h.segment_distinct hs)).mpr he
    cases hf : d.find env name with
    | none =>
      have := List.findSome?_eq_none_iff.mp hf s hs
      rw [hfs] at this
      cases this
    | some id' =>
      obtain ⟨s', hs', hfs'⟩ := List.exists_of_findSome?_eq_some hf
      have heq := h.distinct.eq (hmem hs' hfs') hin rfl
      cases heq
      rfl

theorem Holds.find_eq_none_iff (h : Holds env d l) {name : String} :
    d.find env name = none ↔ ∀ e ∈ l, e.name ≠ name := by
  constructor
  · rintro hf e he rfl
    have := h.find_eq_some_iff.mpr he
    rw [hf] at this
    cases this
  · intro hall
    cases hf : d.find env name with
    | none => rfl
    | some id => exact (hall _ (h.find_eq_some_iff.mp hf) rfl).elim

theorem place_spec (cap : Nat) (name : String) (id : Nat) {segs : List Segment}
    (hgood : ∀ s ∈ segs, s.Good env) :
    (∀ s ∈ place env cap (nameHash env name) name id segs, s.Good env) ∧
      (⟨name, id⟩ :: segs.flatMap Segment.items).Perm
        ((place env cap (nameHash env name) name id segs).flatMap Segment.items) := by
  induction segs with
  | nil =>
    obtain ⟨hg, hp⟩ := Segment.add_spec (Segment.new_good env cap) name id
    refine ⟨fun s hs => ?_, ?_⟩
    · rw [List.mem_singleton.mp hs]
      exact hg
    · rw [place, List.flatMap_singleton]
      exact hp
  | cons s segs ih =>
    have hs := hgood s List.mem_cons_self
    have hrest := fun s' hs' => hgood s' (List.mem_cons_of_mem _ hs')
    unfold place
    by_cases hfull : s.full = true
    · obtain ⟨hg, hp⟩ := ih hrest
      rw [if_pos hfull]
      refine ⟨fun s' hs' => ?_, ?_⟩
      · rcases List.mem_cons.mp hs' with rfl | hs'
        · exact hs
        · exact hg s' hs'
      · rw [List.flatMap_cons, List.flatMap_cons]
        exact List.perm_middle.symm.trans (hp.append_left _)
    · obtain ⟨hg, hp⟩ := Segment.add_spec hs name id
      rw [if_neg hfull]
      refine ⟨fun s' hs' => ?_, ?_⟩
      · rcases List.mem_cons.mp hs' with rfl | hs'
        · exact hg
        · exact hrest s' hs'
      · rw [List.flatMap_cons, List.flatMap_cons, ← List.cons_append]
        exact hp.append_right _

theorem Holds.pushUnique (h : Holds env d l) {name : String} (hnew : ∀ e ∈ l, e.name ≠ name)
    (id : Nat) : Holds env (d.pushUnique env name id) (⟨name, id⟩ :: l) := by
  obtain ⟨hg, hp⟩ := place_spec d.cap name id h.good
  refine ⟨hg, hp.symm.trans (h.perm.cons _), List.nodup_cons.mpr ⟨fun hm => ?_, h.distinct⟩⟩
  obtain ⟨e, he, hname⟩ := List.mem_map.mp hm
  exact hnew e he hname

theorem Holds.add (h : Holds env d l) {name : String} (hnew : ∀ e ∈ l, e.name ≠ name) (id : Nat) :
    ∃ d', d.add env name id = (true, d') ∧ Holds env d' (⟨name, id⟩ :: l) := by
  have hnone : findIn env (nameHash env name) name d.segments = none :=
    h.find_eq_none_iff.mpr hnew
  refine ⟨_, ?_, h.pushUnique hnew id⟩
  unfold Directory.add
  simp only [hnone, Option.isSome_none, Bool.false_eq_true, if_false]
  rfl

theorem Holds.add_present (h : Holds env d l) {name : String} {id : Nat} (hmem : ⟨name, id⟩ ∈ l)
    (id' : Nat) : d.add env name id' = (false, d) := by
  have hsome : findIn env (nameHash env name) name d.segments = some id :=
    h.find_eq_some_iff.mpr hmem
  unfold Directory.add
  simp only [hsome, Option.isSome_some, if_true]

theorem removeFrom_of_absent {name : String} {segs : List Segment}
    (habs : ∀ e ∈ segs.flatMap Segment.items, e.name ≠ name) :
    removeFrom env (nameHash env name) name segs = (false, segs) := by
  induction segs with
  | nil => rfl
  | cons s segs ih =>
    rw [List.flatMap_cons] at habs
    have hs : s.remove env (nameHash env name) name = (false, s) :=
      Segment.remove_of_absent (fun e he => habs e (List.mem_append_left _ he))
    unfold removeFrom
    rw [hs, ih (fun e he => habs e (List.mem_append_right _ he))]

theorem removeFrom_of_mem {name : String} {id : Nat} {segs : List Segment}
    (hgood : ∀ s ∈ segs, s.Good env) (hd : Distinct (segs.flatMap Segment.items))
    (hmem : ⟨name, id⟩ ∈ segs.flatMap Segment.items) :
    ∃ segs', removeFrom env (nameHash env name) name segs = (true, segs') ∧
      (∀ s ∈ segs', s.Good env) ∧
      (⟨name, id⟩ :: segs'.flatMap Segment.items).Perm (segs.flatMap Segment.items) := by
  induction segs with
  | nil => cases hmem
  | cons s segs ih =>
    have hs := hgood s List.mem_cons_self
    have hrest := fun s' hs' => hgood s' (List.mem_cons_of_mem _ hs')
    rw [List.flatMap_cons] at hmem hd ⊢
    have hds : Distinct s.items :=
      List.Nodup.sublist (List.Sublist.map _ (List.sublist_append_left _ _)) hd
    have hdr : Distinct (segs.flatMap Segment.items) :=
      List.Nodup.sublist (List.Sublist.map _ (List.sublist_append_right _ _)) hd
    unfold removeFrom
    by_cases hin : ⟨name, id⟩ ∈ s.items
    · obtain ⟨s', hrem, hg, hp⟩ := Segment.remove_of_mem hs hds hin
      rw [hrem]
      refine ⟨s' :: segs, rfl, fun s₁ hs₁ => ?_, ?_⟩
      · rcases List.mem_cons.mp hs₁ with rfl | hs₁
        · exact hg
        · exact hrest s₁ hs₁
      · rw [List.flatMap_cons, ← List.cons_append]
        exact hp.append_right _
    · have hseg : ⟨name, id⟩ ∈ segs.flatMap Segment.items := by
        rcases List.mem_append.mp hmem with h | h
        · exact (hin h).elim
        · exact h
      obtain ⟨segs', hrem, hg, hp⟩ := ih hrest hdr hseg
      have hskip : s.remove env (nameHash env name) name = (false, s) := by
        refine Segment.remove_of_absent (fun e he hname => hin ?_)
        have heq : e = ⟨name, id⟩ := hd.eq (List.mem_append_left _ he) hmem hname
        rw [← heq]
        exact he
      rw [hskip, hrem]
      refine ⟨s :: segs', rfl, fun s₁ hs₁ => ?_, ?_⟩
      · rcases List.mem_cons.mp hs₁ with rfl | hs₁
        · exact hs
        · exact hg s₁ hs₁
      · rw [List.flatMap_cons]
        exact List.perm_middle.symm.trans (hp.append_left _)

theorem Holds.delete_found (h : Holds env d l) {name : String} {id : Nat} (hmem : ⟨name, id⟩ ∈ l) :
    (d.delete env name).1 = true := by
  obtain ⟨segs', hrem, -, -⟩ := removeFrom_of_mem h.good (h.distinct.perm h.perm.symm)
    (h.perm.mem_iff.mpr hmem)
  unfold Directory.delete
  rw [hrem]

theorem Holds.delete_absent (h : Holds env d l) {name : String} (habs : ∀ e ∈ l, e.name ≠ name) :
    d.delete env name = (false, d) := by
  have hrem : removeFrom env (nameHash env name) name d.segments = (false, d.segments) :=
    removeFrom_of_absent (fun e he => habs e (h.perm.mem_iff.mp he))
  unfold Directory.delete
  rw [hrem]

theorem Holds.delete (h : Holds env d l) {name : String} {id : Nat} (hmem : ⟨name, id⟩ ∈ l) :
    Holds env (d.delete env name).2 (l.erase ⟨name, id⟩) := by
  obtain ⟨segs', hrem, hg, hp⟩ := removeFrom_of_mem h.good (h.distinct.perm h.perm.symm)
    (h.perm.mem_iff.mpr hmem)
  have hsegs : (d.delete env name).2.segments = segs' := by
    unfold Directory.delete
    rw [hrem]
  have hl : (⟨name, id⟩ :: segs'.flatMap Segment.items).Perm l := hp.trans h.perm
  refine ⟨?_, ?_, ?_⟩
  · rw [hsegs]
    exact hg
  · rw [hsegs]
    exact (List.perm_cons _).mp (hl.trans (List.perm_cons_erase hmem))
  · exact List.Nodup.sublist (List.Sublist.map _ List.erase_sublist) h.distinct

theorem Holds.len (h : Holds env d l) : d.len = l.length := by
  rw [← h.perm.length_eq, List.length_flatMap, Directory.len]
  congr 1
  exact List.map_congr_left (fun s hs => (h.good s hs).counted)

theorem Holds.isEmpty (h : Holds env d l) : d.isEmpty = true ↔ l = [] := by
  rw [Directory.isEmpty, decide_eq_true_eq, h.len, List.length_eq_zero_iff]

end Directory

end Dir
end BloomFS
