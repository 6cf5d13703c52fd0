/-
One Bloom filter for the names of all directories.

`GlobalFilter` keeps a map of names per directory, a filter over the hashes of all
names, and the low words of the hashes that were unlinked since the filter was built.
A resident directory answers from its map, a cold one asks the filter and the
tombstones first.  Tombstones do not say whose name is gone, so a name that shares its
low word with one that was unlinked is hidden while its directory is cold.
-/
import BloomFS.Dir.Directory
import Mathlib.Data.Finset.Card

namespace BloomFS
namespace Go

open Dir

/-- The libraries the package rests on, and the order in which the runtime visits
maps, by number of rebuilds. -/
structure Lib where
  Filter : Type
  newBlockedTuned : Nat → Filter
  addHash : Filter → UInt64 × UInt64 → Filter
  testHash : Filter → UInt64 × UInt64 → Bool
  /-- `xxh3.HashString128Seed(name, dirIno)`, high and low word -/
  key : Nat → String → UInt64 × UInt64
  visit : Nat → List (Nat × String) → List (Nat × String)

/-- The filter has no false negatives, and a walk over the maps visits every name. -/
structure Lib.Lawful (L : Lib) : Prop where
  test_add_self : ∀ f k, L.testHash (L.addHash f k) k = true
  test_add : ∀ f k k', L.testHash f k = true → L.testHash (L.addHash f k') k = true
  visit_perm : ∀ n l, (L.visit n l).Perm l

structure DirState where
  index : AList (fun _ : UInt64 => List DirEntry)
  hot : Bool

structure GlobalFilter (L : Lib) where
  filter : L.Filter
  deleted : Finset UInt64
  dirs : AList (fun _ : Nat => DirState)
  live : Int
  rebuildThreshold : Nat
  rebuilds : Nat

def defaultRebuildThreshold : Nat := 16000

namespace GlobalFilter

variable {L : Lib}

def newSized (L : Lib) (expected : Int) : GlobalFilter L where
  filter := L.newBlockedTuned (if expected < 1 then 1 else expected).toNat
  deleted := ∅
  dirs := ∅
  live := 0
  rebuildThreshold := defaultRebuildThreshold
  rebuilds := 0

/-- Go's second result says whether the name was found. -/
def lookup (g : GlobalFilter L) (dirIno : Nat) (name : String) : Nat × Bool :=
  let k := L.key dirIno name
  let d := g.dirs.lookup dirIno
  let cold := (d.map (·.hot)).getD false = false
  if cold ∧ L.testHash g.filter k = false then (0, false)
  else if cold ∧ k.2 ∈ g.deleted then (0, false)
  else match d with
    | none => (0, false)
    | some d =>
        match ((d.index.lookup k.2).getD []).find? (·.name = name) with
        | some e => (e.inode, true)
        | none => (0, false)

/-- The record of a directory, an empty one if there is none yet. -/
def dirEntry (g : GlobalFilter L) (dirIno : Nat) : DirState :=
  (g.dirs.lookup dirIno).getD ⟨∅, false⟩

def markResident (g : GlobalFilter L) (dirIno : Nat) : GlobalFilter L :=
  { g with dirs := g.dirs.insert dirIno { g.dirEntry dirIno with hot := true } }

def evict (g : GlobalFilter L) (dirIno : Nat) : GlobalFilter L :=
  match g.dirs.lookup dirIno with
  | none => g
  | some d => { g with dirs := g.dirs.insert dirIno { d with hot := false } }

def create (g : GlobalFilter L) (dirIno : Nat) (name : String) (inode : Nat) :
    Bool × GlobalFilter L :=
  let k := L.key dirIno name
  let d := g.dirEntry dirIno
  let chain := (d.index.lookup k.2).getD []
  if (chain.find? (·.name = name)).isSome then (false, { g with dirs := g.dirs.insert dirIno d })
  else
    (true, { g with
      deleted := g.deleted.erase k.2
      filter := L.addHash g.filter k
      dirs := g.dirs.insert dirIno { d with index := d.index.insert k.2 (chain ++ [⟨name, inode⟩]) }
      live := g.live + 1 })

/-- The names in all directories, directory by directory and chain by chain. -/
def names (g : GlobalFilter L) : List (Nat × String) :=
  g.dirs.entries.flatMap fun d => (d.2.index.entries.flatMap (·.2)).map fun e => (d.1, e.name)

def rebuildLocked (g : GlobalFilter L) : GlobalFilter L :=
  { g with
    filter := (L.visit g.rebuilds g.names).foldl (fun f n => L.addHash f (L.key n.1 n.2))
      (L.newBlockedTuned (if g.live < 1 then 1 else g.live).toNat)
    deleted := ∅
    rebuilds := g.rebuilds + 1 }

/-- Put `chain` in place of one with an entry more, and leave a tombstone. -/
def bury (g : GlobalFilter L) (dirIno : Nat) (d : DirState) (lo : UInt64) (chain : List DirEntry) :
    GlobalFilter L :=
  { g with
    dirs := g.dirs.insert dirIno { d with index := Segment.shorten d.index lo chain }
    live := g.live - 1
    deleted := insert lo g.deleted }

def unlink (g : GlobalFilter L) (dirIno : Nat) (name : String) : Bool × GlobalFilter L :=
  let lo := (L.key dirIno name).2
  match g.dirs.lookup dirIno with
  | none => (false, g)
  | some d =>
      let chain := (d.index.lookup lo).getD []
      match chain.findIdx? (·.name = name) with
      | none => (false, g)
      | some pos =>
          let g := g.bury dirIno d lo (swapRemove chain pos)
          (true, if g.rebuildThreshold ≤ g.deleted.card then g.rebuildLocked else g)

def forceRebuild (g : GlobalFilter L) : GlobalFilter L := g.rebuildLocked

def len (g : GlobalFilter L) : Int := g.live

end GlobalFilter

/-! ## Runs -/

inductive Op where
  | create (dirIno : Nat) (name : String) (inode : Nat)
  | unlink (dirIno : Nat) (name : String)
  | markResident (dirIno : Nat)
  | evict (dirIno : Nat)
  | forceRebuild

def GlobalFilter.apply {L : Lib} (g : GlobalFilter L) : Op → GlobalFilter L
  | .create d n i => (g.create d n i).2
  | .unlink d n => (g.unlink d n).2
  | .markResident d => g.markResident d
  | .evict d => g.evict d
  | .forceRebuild => g.forceRebuild

/-- The pairs that were created and not unlinked since, with their inodes. -/
abbrev Pairs := AList (fun _ : Nat × String => Nat)

def Pairs.apply (m : Pairs) : Op → Pairs
  | .create d n i => if (d, n) ∈ m then m else m.insert (d, n) i
  | .unlink d n => m.erase (d, n)
  | _ => m

/-- What a lookup should answer. -/
def answer : Option Nat → Nat × Bool
  | some i => (i, true)
  | none => (0, false)

/-! ## Chains -/

namespace GlobalFilter

variable {L : Lib} {g : GlobalFilter L} {m : Pairs} {d : Nat} {name : String} {inode : Nat}

/-- The chain of directory `d` under low word `h`. -/
def chain (g : GlobalFilter L) (d : Nat) (h : UInt64) : List DirEntry :=
  ((g.dirEntry d).index.lookup h).getD []

/-- Where directory `d` has the name `name`. -/
def place (g : GlobalFilter L) (d : Nat) (name : String) : List DirEntry :=
  g.chain d (L.key d name).2

theorem chain_eq {ds : DirState} (h : g.dirs.lookup d = some ds) (w : UInt64) :
    g.chain d w = (ds.index.lookup w).getD [] := by
  unfold chain dirEntry
  rw [h]
  rfl

theorem chain_of_none (h : g.dirs.lookup d = none) (w : UInt64) : g.chain d w = [] := by
  unfold chain dirEntry
  rw [h]
  show ((∅ : AList fun _ : UInt64 => List DirEntry).lookup w).getD [] = []
  rw [AList.lookup_empty]
  rfl

theorem chain_insert {g' : GlobalFilter L} {ds : DirState} (h : g'.dirs = g.dirs.insert d ds)
    (d' : Nat) (w : UInt64) :
    g'.chain d' w = if d' = d then (ds.index.lookup w).getD [] else g.chain d' w := by
  by_cases hd : d' = d
  · subst hd
    rw [if_pos rfl]
    exact chain_eq (by rw [h, AList.lookup_insert]) w
  · unfold chain dirEntry
    rw [if_neg hd, h, AList.lookup_insert_ne hd]

theorem chain_congr {g' : GlobalFilter L} (h : g'.dirs = g.dirs) (d : Nat) (w : UInt64) :
    g'.chain d w = g.chain d w := by
  unfold chain dirEntry
  rw [h]

theorem mem_names {w : UInt64} {e : DirEntry} (he : e ∈ g.chain d w) : (d, e.name) ∈ g.names := by
  cases hd : g.dirs.lookup d with
  | none =>
    rw [chain_of_none hd] at he
    cases he
  | some ds =>
    rw [chain_eq hd] at he
    cases hc : ds.index.lookup w with
    | none =>
      rw [hc] at he
      cases he
    | some c =>
      rw [hc] at he
      refine List.mem_flatMap.mpr ⟨⟨d, ds⟩, AList.mem_lookup_iff.mp hd,
        List.mem_map.mpr ⟨e, ?_, rfl⟩⟩
      exact List.mem_flatMap.mpr ⟨⟨w, c⟩, AList.mem_lookup_iff.mp hc, he⟩

theorem test_foldl (hL : L.Lawful) {l : List (Nat × String)} {f : L.Filter} {k : UInt64 × UInt64}
    (h : L.testHash f k = true ∨ ∃ n ∈ l, L.key n.1 n.2 = k) :
    L.testHash (l.foldl (fun f n => L.addHash f (L.key n.1 n.2)) f) k = true := by
  induction l generalizing f with
  | nil =>
    rcases h with h | ⟨n, hn, -⟩
    · exact h
    · cases hn
  | cons x l ih =>
    apply ih
    rcases h with h | ⟨n, hn, hk⟩
    · exact .inl (hL.test_add _ _ _ h)
    · rcases List.mem_cons.mp hn with rfl | hn
      · subst hk
        exact .inl (hL.test_add_self _ _)
      · exact .inr ⟨n, hn, hk⟩

/-! ## The maps follow the pairs -/

/-- The chains hold exactly the pairs, each under its low word, and the filter knows
them. -/
structure Tracks (g : GlobalFilter L) (m : Pairs) : Prop where
  mem : ∀ d n i, ⟨n, i⟩ ∈ g.place d n ↔ m.lookup (d, n) = some i
  placed : ∀ d w, ∀ e ∈ g.chain d w, (L.key d e.name).2 = w
  distinct : ∀ d w, Segment.Distinct (g.chain d w)
  filtered : ∀ d n, (d, n) ∈ m → L.testHash g.filter (L.key d n) = true
  live : g.live = m.keys.length

theorem tracks_newSized (L : Lib) (expected : Int) : Tracks (newSized L expected) ∅ := by
  have hempty : ∀ d w, (newSized L expected).chain d w = [] :=
    fun d w => chain_of_none (AList.lookup_empty d) w
  refine ⟨fun d n i => ?_, fun d w e he => ?_, fun d w => ?_, fun d n h => ?_, rfl⟩
  · rw [place, hempty, AList.lookup_empty]
    exact iff_of_false List.not_mem_nil nofun
  · rw [hempty] at he
    cases he
  · rw [hempty]
    exact List.nodup_nil
  · exact absurd h (AList.notMem_empty _)

theorem Tracks.find_place (ht : Tracks g m) (d : Nat) (name : String) :
    (g.place d name).find? (·.name = name) = (m.lookup (d, name)).map fun i => ⟨name, i⟩ := by
  cases hm : m.lookup (d, name) with
  | none =>
    refine List.find?_eq_none.mpr fun e he hname => ?_
    have heq : e.name = name := of_decide_eq_true hname
    have := (ht.mem d name e.inode).mp (heq ▸ he)
    rw [hm] at this
    cases this
  | some i => exact ((ht.distinct d _).find_name (e := ⟨name, i⟩)).mpr ((ht.mem d name i).mpr hm)

/-- A lookup is right unless a tombstone hides the pair. -/
theorem Tracks.lookup_eq (ht : Tracks g m) {d : Nat} {name : String}
    (hclear : (d, name) ∈ m → (L.key d name).2 ∉ g.deleted) :
    g.lookup d name = answer (m.lookup (d, name)) := by
  have hfind := ht.find_place d name
  unfold lookup
  dsimp only
  cases hm : m.lookup (d, name) with
  | none =>
    rw [hm] at hfind
    split
    · rfl
    · split
      · rfl
      · cases hd : g.dirs.lookup d with
        | none => rfl
        | some ds =>
          rw [place, chain_eq hd] at hfind
          dsimp only
          rw [hfind]
          rfl
  | some i =>
    have hmem : (d, name) ∈ m := AList.lookup_isSome.mp (by rw [hm]; rfl)
    rw [hm] at hfind
    rw [ht.filtered d name hmem, if_neg (fun h => by cases h.2), if_neg (fun h => hclear hmem h.2)]
    cases hd : g.dirs.lookup d with
    | none =>
      rw [place, chain_of_none hd] at hfind
      cases hfind
    | some ds =>
      rw [place, chain_eq hd] at hfind
      dsimp only
      rw [hfind]
      rfl

/-! ## Single steps -/

theorem length_keys_insert {α : Type} {β : α → Type} [DecidableEq α] {l : AList β} {a : α} {b : β a}
    (h : a ∉ l) : (l.insert a b).keys.length = l.keys.length + 1 := by
  rw [AList.keys_insert, List.erase_of_not_mem h]
  rfl

theorem length_keys_erase {α : Type} {β : α → Type} [DecidableEq α] {l : AList β}
    {a : α} (h : a ∈ l) : (l.erase a).keys.length + 1 = l.keys.length := by
  rw [AList.keys_erase]
  exact List.length_erase_add_one h

theorem Tracks.of_chains {g' : GlobalFilter L} (ht : Tracks g m)
    (hc : ∀ d w, g'.chain d w = g.chain d w)
    (hf : ∀ d n, (d, n) ∈ m → L.testHash g'.filter (L.key d n) = true) (hlive : g'.live = g.live) :
    Tracks g' m where
  mem d n i := by
    rw [place, hc]
    exact ht.mem d n i
  placed d w := by
    rw [hc]
    exact ht.placed d w
  distinct d w := by
    rw [hc]
    exact ht.distinct d w
  filtered := hf
  live := hlive.trans ht.live

theorem chain_flag {g' : GlobalFilter L} {ds : DirState} (h : g'.dirs = g.dirs.insert d ds)
    (hi : ds.index = (g.dirEntry d).index) (d' : Nat) (w : UInt64) :
    g'.chain d' w = g.chain d' w := by
  rw [chain_insert h, hi]
  by_cases hd : d' = d
  · subst hd
    exact if_pos rfl
  · exact if_neg hd

theorem Tracks.rebuildLocked (hL : L.Lawful) (ht : Tracks g m) : Tracks g.rebuildLocked m := by
  refine ht.of_chains (fun d w => chain_congr rfl d w) (fun d n hm => ?_) rfl
  obtain ⟨i, hi⟩ := Option.isSome_iff_exists.mp (AList.lookup_isSome.mpr hm)
  have hname : (d, n) ∈ g.names := mem_names ((ht.mem d n i).mpr hi)
  exact test_foldl hL (.inr ⟨(d, n), (hL.visit_perm _ _).mem_iff.mpr hname, rfl⟩)

theorem Tracks.markResident (ht : Tracks g m) (d : Nat) : Tracks (g.markResident d) m :=
  ht.of_chains (chain_flag rfl rfl) ht.filtered rfl

theorem Tracks.evict (ht : Tracks g m) (d : Nat) : Tracks (g.evict d) m := by
  unfold GlobalFilter.evict
  cases hd : g.dirs.lookup d with
  | none => exact ht
  | some ds =>
    refine ht.of_chains (chain_flag rfl ?_) ht.filtered rfl
    unfold dirEntry
    rw [hd]
    rfl

theorem Tracks.taken_iff (ht : Tracks g m) (d : Nat) (name : String) :
    ((g.place d name).find? (·.name = name)).isSome ↔ (d, name) ∈ m := by
  rw [ht.find_place, Option.isSome_map, AList.lookup_isSome]

theorem getD_insert (idx : AList (fun _ : UInt64 => List DirEntry)) (w w' : UInt64)
    (c : List DirEntry) :
    ((idx.insert w c).lookup w').getD [] = if w' = w then c else (idx.lookup w').getD [] := by
  by_cases hw : w' = w
  · subst hw
    rw [AList.lookup_insert, if_pos rfl]
    rfl
  · rw [AList.lookup_insert_ne hw, if_neg hw]

theorem getD_shorten (idx : AList (fun _ : UInt64 => List DirEntry)) (w w' : UInt64)
    (c : List DirEntry) :
    ((Segment.shorten idx w c).lookup w').getD [] = if w' = w then c
        else (idx.lookup w').getD [] := by
  unfold Segment.shorten
  cases c with
  | cons e c => exact getD_insert idx w w' (e :: c)
  | nil =>
    show ((idx.erase w).lookup w').getD [] = _
    by_cases hw : w' = w
    · subst hw
      rw [AList.lookup_erase, if_pos rfl]
      rfl
    · rw [AList.lookup_erase_ne hw, if_neg hw]

theorem chain_put {g' : GlobalFilter L} {ds : DirState} {w : UInt64} {c : List DirEntry}
    (h : g'.dirs = g.dirs.insert d ds)
    (hi : ∀ w', (ds.index.lookup w').getD [] = if w' = w then c else g.chain d w') (d' : Nat)
      (w' : UInt64) :
    g'.chain d' w' = if d' = d ∧ w' = w then c else g.chain d' w' := by
  rw [chain_insert h, hi]
  by_cases hd : d' = d
  · subst hd
    simp
  · simp [hd]

/-- One chain and the pairs under its low word change. -/
theorem Tracks.put (ht : Tracks g m) {g' : GlobalFilter L} {m' : Pairs} {w : UInt64}
    {c : List DirEntry}
    (hchain : ∀ d' w', g'.chain d' w' = if d' = d ∧ w' = w then c else g.chain d' w')
    (hmem : ∀ n i, (L.key d n).2 = w → (⟨n, i⟩ ∈ c ↔ m'.lookup (d, n) = some i))
    (hsame : ∀ d' n, ¬ (d' = d ∧ (L.key d' n).2 = w) → m'.lookup (d', n) = m.lookup (d', n))
    (hplaced : ∀ e ∈ c, (L.key d e.name).2 = w) (hdistinct : Segment.Distinct c)
    (hf : ∀ d n, (d, n) ∈ m' → L.testHash g'.filter (L.key d n) = true)
    (hlive : g'.live = m'.keys.length) : Tracks g' m' where
  mem d' n i := by
    rw [place, hchain]
    by_cases h : d' = d ∧ (L.key d' n).2 = w
    · obtain ⟨rfl, hw⟩ := h
      rw [if_pos ⟨rfl, hw⟩]
      exact hmem n i hw
    · rw [if_neg h, hsame d' n h]
      exact ht.mem d' n i
  placed d' w' e he := by
    rw [hchain] at he
    by_cases h : d' = d ∧ w' = w
    · rw [if_pos h] at he
      rw [h.1, h.2]
      exact hplaced e he
    · rw [if_neg h] at he
      exact ht.placed d' w' e he
  distinct d' w' := by
    rw [hchain]
    by_cases h : d' = d ∧ w' = w
    · rw [if_pos h]
      exact hdistinct
    · rw [if_neg h]
      exact ht.distinct d' w'
  filtered := hf
  live := hlive

theorem Tracks.create (hL : L.Lawful) (ht : Tracks g m) (d : Nat) (name : String) (inode : Nat) :
    Tracks (g.create d name inode).2 (m.apply (.create d name inode)) := by
  have htaken := ht.taken_iff d name
  unfold place chain at htaken
  unfold GlobalFilter.create Pairs.apply
  dsimp only
  by_cases hm : (d, name) ∈ m
  · rw [if_pos hm, if_pos (htaken.mpr hm)]
    exact ht.of_chains (chain_flag rfl rfl) ht.filtered rfl
  rw [if_neg hm, if_neg (htaken.not.mpr hm)]
  have hnone : m.lookup (d, name) = none := AList.lookup_eq_none.mpr hm
  have hnew : ∀ e ∈ g.place d name, e.name ≠ name := by
    rintro e he rfl
    have := (ht.mem d e.name e.inode).mp he
    rw [hnone] at this
    cases this
  refine ht.put (w := (L.key d name).2) (c := g.place d name ++ [⟨name, inode⟩])
    (chain_put rfl fun w' => getD_insert _ _ w' _) (fun n i hw => ?_) (fun d' n h => ?_)
    (fun e he => ?_) ?_
    (fun d' n h => ?_) ?_
  · by_cases hn : n = name
    · subst hn
      rw [AList.lookup_insert, List.mem_append, List.mem_singleton]
      constructor
      · rintro (he | he)
        · exact absurd rfl (hnew _ he)
        · cases he
          rfl
      · rintro ⟨⟩
        exact .inr rfl
    · have hplace : g.place d name = g.place d n := by rw [place, place, hw]
      rw [AList.lookup_insert_ne (fun h => hn (Prod.mk.inj h).2), List.mem_append,
        List.mem_singleton, hplace, ← ht.mem d n i]
      refine or_iff_left fun he => hn ?_
      cases he
      rfl
  · refine AList.lookup_insert_ne fun heq => h ?_
    cases heq
    exact ⟨rfl, rfl⟩
  · rcases List.mem_append.mp he with he | he
    · exact ht.placed d _ e he
    · rw [List.mem_singleton.mp he]
  · refine List.Nodup.perm ?_ ((List.perm_append_singleton _ _).map _).symm
    refine List.nodup_cons.mpr ⟨fun hmem => ?_, ht.distinct d _⟩
    obtain ⟨e, he, hname⟩ := List.mem_map.mp hmem
    exact hnew e he hname
  · rcases (AList.mem_insert m).mp h with heq | h
    · cases heq
      exact hL.test_add_self _ _
    · exact hL.test_add _ _ _ (ht.filtered d' n h)
  · show g.live + 1 = _
    rw [length_keys_insert hm, ht.live]
    rfl

theorem unlink_of_absent (ht : Tracks g m) (hm : (d, name) ∉ m) : g.unlink d name = (false, g) := by
  unfold GlobalFilter.unlink
  dsimp only
  cases hd : g.dirs.lookup d with
  | none => rfl
  | some ds =>
    dsimp only
    rw [← chain_eq hd]
    have hnone : (g.chain d (L.key d name).2).findIdx? (·.name = name) = none := by
      rw [List.findIdx?_eq_none_iff]
      intro e he
      refine decide_eq_false fun hname => hm ?_
      have hl := (ht.mem d name e.inode).mp (hname ▸ he)
      exact AList.lookup_isSome.mp (by rw [hl]; rfl)
    rw [hnone]

/-- What unlinking a pair does before the filter is looked at: `c` is left of its
chain, and its low word becomes a tombstone. -/
structure Removed (g : GlobalFilter L) (d : Nat) (name : String) (inode : Nat) (c : List DirEntry)
    (g₁ : GlobalFilter L) : Prop where
  perm : (⟨name, inode⟩ :: c).Perm (g.place d name)
  filter : g₁.filter = g.filter
  deleted : g₁.deleted = insert (L.key d name).2 g.deleted
  live : g₁.live = g.live - 1
  chain : ∀ d' w, g₁.chain d' w = if d' = d ∧ w = (L.key d name).2 then c else g.chain d' w

theorem unlink_of_mem (ht : Tracks g m) (hm : m.lookup (d, name) = some inode) :
    ∃ g₁ c, Removed g d name inode c g₁ ∧
      g.unlink d name = (true, if g₁.rebuildThreshold ≤ g₁.deleted.card then g₁.rebuildLocked
        else g₁) := by
  have hin : ⟨name, inode⟩ ∈ g.place d name := (ht.mem d name inode).mpr hm
  unfold GlobalFilter.unlink
  dsimp only
  cases hd : g.dirs.lookup d with
  | none =>
    rw [place, chain_of_none hd] at hin
    cases hin
  | some ds =>
    dsimp only
    rw [← chain_eq hd]
    cases hidx : (g.place d name).findIdx? (·.name = name) with
    | none =>
      have := List.findIdx?_eq_none_iff.mp hidx _ hin
      simp at this
    | some pos =>
      obtain ⟨hpos, hname, -⟩ := List.findIdx?_eq_some_iff_getElem.mp hidx
      have hget : (g.place d name).get ⟨pos, hpos⟩ = ⟨name, inode⟩ :=
        (ht.distinct d _).eq (List.getElem_mem hpos) hin (by simpa using hname)
      have hswap := swapRemove_perm hpos
      rw [hget] at hswap
      unfold place at hidx
      rw [hidx]
      refine ⟨g.bury d ds (L.key d name).2 (swapRemove (g.place d name) pos), _,
        ⟨hswap, rfl, rfl, rfl, ?_⟩, rfl⟩
      refine chain_put rfl fun w' => (getD_shorten _ _ w' _).trans ?_
      rw [chain_eq hd]

theorem Removed.tracks {g₁ : GlobalFilter L} {c : List DirEntry} (h : Removed g d name inode c g₁)
    (ht : Tracks g m) (hm : m.lookup (d, name) = some inode) : Tracks g₁ (m.erase (d, name)) := by
  have hmem : (d, name) ∈ m := AList.lookup_isSome.mp (by rw [hm]; rfl)
  have hdist : Segment.Distinct (⟨name, inode⟩ :: c) := (ht.distinct d _).perm h.perm.symm
  have hsub : ∀ e, e ∈ c ↔ e ∈ g.place d name ∧ e.name ≠ name := by
    intro e
    rw [← h.perm.mem_iff, List.mem_cons]
    constructor
    · intro he
      refine ⟨.inr he, fun hname => ?_⟩
      exact (List.nodup_cons.mp hdist).1 (List.mem_map.mpr ⟨e, he, hname⟩)
    · rintro ⟨rfl | he, hne⟩
      · exact absurd rfl hne
      · exact he
  refine ht.put h.chain (fun n i hw => ?_) (fun d' n hno => ?_)
    (fun e he => ?_) (List.nodup_cons.mp hdist).2 (fun d' n hm' => ?_) ?_
  · have hplace : g.place d name = g.place d n := by rw [place, place, hw]
    rw [hsub, hplace, ht.mem]
    by_cases hn : n = name
    · subst hn
      rw [AList.lookup_erase]
      exact iff_of_false (fun hand => hand.2 rfl) nofun
    · rw [AList.lookup_erase_ne (fun heq => hn (Prod.mk.inj heq).2)]
      exact and_iff_left hn
  · refine AList.lookup_erase_ne fun heq => hno ?_
    cases heq
    exact ⟨rfl, rfl⟩
  · exact ht.placed d _ e ((hsub e).mp he).1
  · rw [h.filter]
    exact ht.filtered d' n (AList.mem_erase.mp hm').2
  · have := length_keys_erase hmem
    rw [h.live, ht.live]
    omega

theorem Tracks.unlink (hL : L.Lawful) (ht : Tracks g m) (d : Nat) (name : String) :
    Tracks (g.unlink d name).2 (m.apply (.unlink d name)) := by
  show Tracks _ (m.erase (d, name))
  cases hm : m.lookup (d, name) with
  | none =>
    have hno : (d, name) ∉ m := AList.lookup_eq_none.mp hm
    have hsame : m.erase (d, name) = m := AList.ext (List.kerase_of_notMem_keys hno)
    rw [unlink_of_absent ht hno, hsame]
    exact ht
  | some inode =>
    obtain ⟨g₁, c, h, heq⟩ := unlink_of_mem ht hm
    have ht₁ := h.tracks ht hm
    rw [heq]
    split
    · exact ht₁.rebuildLocked hL
    · exact ht₁

/-! ## Tombstones -/

/-- No pair is hidden by a tombstone. -/
def Unmasked (g : GlobalFilter L) (m : Pairs) : Prop :=
  ∀ d n, (d, n) ∈ m → (L.key d n).2 ∉ g.deleted

theorem Unmasked.create (hm : Unmasked g m) (ht : Tracks g m) (d : Nat) (name : String)
    (inode : Nat) : Unmasked (g.create d name inode).2 (m.apply (.create d name inode)) := by
  have htaken := ht.taken_iff d name
  unfold place chain at htaken
  unfold GlobalFilter.create Pairs.apply
  dsimp only
  by_cases hin : (d, name) ∈ m
  · rw [if_pos hin, if_pos (htaken.mpr hin)]
    exact hm
  · rw [if_neg hin, if_neg (htaken.not.mpr hin)]
    intro d' n h
    show _ ∉ g.deleted.erase _
    rw [Finset.mem_erase, not_and]
    intro hne
    rcases (AList.mem_insert m).mp h with heq | h
    · cases heq
      exact absurd rfl hne
    · exact hm d' n h

/-- Unlinking hides nobody else, if nobody else has the low word. -/
theorem Unmasked.unlink (hm : Unmasked g m) (ht : Tracks g m)
    (hapart : (d, name) ∈ m → ∀ p ∈ m, p ≠ (d, name) → (L.key p.1 p.2).2 ≠ (L.key d name).2) :
    Unmasked (g.unlink d name).2 (m.apply (.unlink d name)) := by
  show Unmasked _ (m.erase (d, name))
  cases hl : m.lookup (d, name) with
  | none =>
    rw [unlink_of_absent ht (AList.lookup_eq_none.mp hl)]
    exact fun d' n h => hm d' n (AList.mem_erase.mp h).2
  | some inode =>
    have hmem : (d, name) ∈ m := AList.lookup_isSome.mp (by rw [hl]; rfl)
    obtain ⟨g₁, c, h, heq⟩ := unlink_of_mem ht hl
    have h₁ : Unmasked g₁ (m.erase (d, name)) := by
      intro d' n hin
      obtain ⟨hne, hin⟩ := AList.mem_erase.mp hin
      rw [h.deleted, Finset.mem_insert, not_or]
      exact ⟨hapart hmem (d', n) hin hne, hm d' n hin⟩
    rw [heq]
    split
    · exact fun _ _ _ => Finset.notMem_empty _
    · exact h₁

end GlobalFilter

/-- No other pair has the low word of one that is unlinked. -/
def Op.Apart (L : Lib) (m : Pairs) : Op → Prop
  | .unlink d n => (d, n) ∈ m → ∀ p ∈ m, p ≠ (d, n) → (L.key p.1 p.2).2 ≠ (L.key d n).2
  | _ => True

/-- A filter and the pairs after the same operations, each permitted by `P`. -/
inductive Reached (L : Lib) (P : Pairs → Op → Prop) : GlobalFilter L → Pairs → Prop
  | new (expected : Int) : Reached L P (GlobalFilter.newSized L expected) ∅
  | step {g : GlobalFilter L} {m : Pairs} (h : Reached L P g m) (op : Op) (hp : P m op) :
      Reached L P (g.apply op) (m.apply op)

open GlobalFilter

variable {L : Lib} {g : GlobalFilter L} {m : Pairs}

theorem Reached.tracks {P : Pairs → Op → Prop} (hL : L.Lawful) (h : Reached L P g m) :
    Tracks g m := by
  induction h with
  | new expected => exact tracks_newSized L expected
  | step h op hp ih =>
    cases op with
    | create d n i => exact ih.create hL d n i
    | unlink d n => exact ih.unlink hL d n
    | markResident d => exact ih.markResident d
    | evict d => exact ih.evict d
    | forceRebuild => exact ih.rebuildLocked hL

theorem Reached.unmasked (hL : L.Lawful) (h : Reached L (fun m op => op.Apart L m) g m) :
    Unmasked g m := by
  induction h with
  | new expected => exact fun d n hin => absurd hin (AList.notMem_empty _)
  | @step g m h op hp ih =>
    have ht := h.tracks hL
    cases op with
    | create d n i => exact ih.create ht d n i
    | unlink d n => exact ih.unlink ht hp
    | markResident d => exact ih
    | evict d =>
      show Unmasked (g.evict d) m
      unfold evict
      cases g.dirs.lookup d with
      | none => exact ih
      | some ds => exact ih
    | forceRebuild => exact fun _ _ _ => Finset.notMem_empty _

/-- While no unlink meets another pair with the same low word, a lookup answers for
exactly the pairs, in resident and in cold directories, and the length is their
number. -/
theorem global_lookup_exact (hL : L.Lawful) (h : Reached L (fun m op => op.Apart L m) g m) :
    (∀ d n, g.lookup d n = answer (m.lookup (d, n))) ∧ g.len = m.keys.length :=
  ⟨fun d n => (h.tracks hL).lookup_eq (h.unmasked hL d n), (h.tracks hL).live⟩

/-- An exact filter, and names hashed to their length. -/
def Lib.plain : Lib where
  Filter := List (UInt64 × UInt64)
  newBlockedTuned _ := []
  addHash f k := k :: f
  testHash f k := decide (k ∈ f)
  key d n := (UInt64.ofNat d, UInt64.ofNat n.length)
  visit _ l := l

theorem Lib.plain_lawful : Lib.plain.Lawful where
  test_add_self f k := by
    show decide (k ∈ (k :: f : List (UInt64 × UInt64))) = true
    exact decide_eq_true List.mem_cons_self
  test_add := by
    have hkeep : ∀ (f : List (UInt64 × UInt64)) (k k' : UInt64 × UInt64), decide (k ∈ f) = true →
        decide (k ∈ k' :: f) = true := fun f k k' h =>
      decide_eq_true (List.mem_cons_of_mem k' (of_decide_eq_true h))
    exact hkeep
  visit_perm _ l := List.Perm.refl l

/-- A name is found in a cold directory after another one is unlinked elsewhere. -/
theorem global_lookup_exact_cold : ∃ g m, Reached Lib.plain (fun m op => op.Apart Lib.plain m) g m ∧
    g.lookup 2 "bb" = answer (some 20) ∧ g.lookup 1 "a" = answer none ∧ g.len = 1 := by
  have h : Reached Lib.plain (fun m op => op.Apart Lib.plain m) _ _ :=
    .step (.step (.step (.new 1024) (.create 1 "a" 10) trivial) (.create 2 "bb" 20) trivial)
      (.unlink 1 "a") (by simp only [Op.Apart]; decide)
  obtain ⟨hlookup, hlen⟩ := global_lookup_exact Lib.plain_lawful h
  exact ⟨_, _, h, hlookup 2 "bb", hlookup 1 "a", hlen⟩

/-- Unlinking one of two names with the same low word hides the other. -/
theorem unlink_hides_other : Lib.plain.Lawful ∧ ∃ g m, Reached Lib.plain (fun _ _ => True) g m ∧
    m.lookup (2, "b") = some 20 ∧ g.lookup 2 "b" = (0, false) :=
  ⟨Lib.plain_lawful, _, _,
    .step (.step (.step (.new 1024) (.create 1 "a" 10) trivial) (.create 2 "b" 20) trivial)
      (.unlink 1 "a") trivial, by decide, by decide⟩

end Go
end BloomFS
