/-
Data writes that fail at their first block.

A call that replaces or extends the contents of a file reads until it stores its first
block.  If the store refuses that block, the call has changed nothing that anyone can see.
If it takes it and refuses a later one, nothing releases the blocks stored so far.
-/
import BloomFS.Fs.Writes
import BloomFS.Fs.Run

namespace BloomFS
namespace Fs

open Bytes Exec Block Store

variable {env : Env} {s s' : FS} {b : Bytes} {α β : Type}

/-- The store refuses the block. -/
def Refused (env : Env) (s : FS) (b : Bytes) : Prop :=
  ∃ f s', (bsWrite b : Act env Ref).1 s = .error f s'

/-- In `s` the computation only reads until it stores `b`. -/
def Starts (x : Act env α) (s : FS) (b : Bytes) : Prop :=
  ∃ k : Ref → Act env α, x.1 s = (bsWrite b >>= k).1 s

/-! ## The first block of a computation -/

theorem run_bind_congr {x y : Act env α} (h : x.1 s = y.1 s) (f : α → Act env β) :
    (x >>= f).1 s = (y >>= f).1 s := by
  cases hy : y.1 s with
  | ok a s' =>
      have hx : (x >>= f).1 s = (f a).1 s' := bind_of_ok (h.trans hy)
      have hy' : (y >>= f).1 s = (f a).1 s' := bind_of_ok hy
      exact hx.trans hy'.symm
  | error e s' =>
      have hx : (x >>= f).1 s = .error e s' := bind_of_error (h.trans hy)
      have hy' : (y >>= f).1 s = .error e s' := bind_of_error hy
      exact hx.trans hy'.symm

theorem starts_bsWrite (s : FS) (b : Bytes) : Starts (bsWrite b : Act env Ref) s b := by
  refine ⟨pure, ?_⟩
  rw [bind_pure]

theorem Starts.bind {x : Act env α} (h : Starts x s b) (f : α → Act env β) :
    Starts (x >>= f) s b := by
  obtain ⟨k, hk⟩ := h
  refine ⟨fun r => k r >>= f, ?_⟩
  rw [← bind_assoc]
  exact run_bind_congr hk f

/-- A first step that only reads. -/
theorem Starts.after {x : Act env α} {f : α → Act env β} {a : α} (hx : x.1 s = .ok a s)
    (h : Starts (f a) s b) : Starts (x >>= f) s b := by
  obtain ⟨k, hk⟩ := h
  exact ⟨k, (bind_of_ok hx).trans hk⟩

theorem Starts.mapM {ι : Type} {w : ι → Act env β} {done rest : List ι} {i : ι}
    (hdone : ∀ j ∈ done, ∃ v, (w j).1 s = .ok v s) (h : Starts (w i) s b) :
    Starts ((done ++ i :: rest).mapM w) s b := by
  induction done with
  | nil =>
      rw [List.nil_append, List.mapM_cons]
      exact h.bind _
  | cons j done ih =>
      obtain ⟨v, hv⟩ := hdone j List.mem_cons_self
      rw [List.cons_append, List.mapM_cons]
      exact .after hv ((ih fun j' hj' => hdone j' (List.mem_cons_of_mem _ hj')).bind _)

theorem Starts.refused {x : Act env α} (h : Starts x s b) {f : Fault Error}
    (hb : (bsWrite b : Act env Ref).1 s = .error f s') : x.1 s = .error f s' := by
  obtain ⟨k, hk⟩ := h
  rw [hk]
  exact bind_of_error hb

/-! ## What a refused block leaves -/

theorem storeWrite_ddt (b : Bytes) (s : FS) :
    Sat (storeWrite env b) s (fun _ _ => True) (fun _ s' => s'.ddt = s.ddt) := by
  refine (storeWrite_sat b s).mono (fun _ _ _ => trivial) ?_
  rintro f s' ⟨-, e', -, hfail⟩
  cases hfail with
  | overflow _ _ _ hddt => exact hddt
  | compress _ _ hddt => exact hddt
  | alloc _ _ _ hddt => exact hddt
  | device _ _ _ hddt => exact hddt

theorem bsWrite_ddt (b : Bytes) (s : FS) :
    Sat (bsWrite b : Act env Ref).1 s (fun _ _ => True) (fun _ s' => s'.ddt = s.ddt) := by
  refine sat_handle (storeWrite_ddt b s) ?_ (fun _ h => h) (fun _ h => h)
  intro e s₁ h₁
  refine sat_get_bind (Within.sat_ite (fun _ => ?_) fun _ => ?_)
  · refine sat_bind (Q := fun _ s₂ => s₂.ddt = s.ddt)
      (sat_modify_bind ((commit_sat (refuse s₁)).mono ?_ ?_))
      (fun _ s₂ h₂ => (storeWrite_ddt b s₂).mono (fun _ _ h => h) fun _ _ h => h.trans h₂)
        (fun _ _ h => h)
    · intro _ s₂ h₂
      rw [h₂.rest]
      exact h₁
    · intro _ s₂ h₂
      rw [h₂.rest]
      exact h₁
  · exact sat_modify_bind (sat_fail h₁)

/-- A block that is refused leaves every block and every reference. -/
theorem bsWrite_kept {T : Multiset Dedup.Key} {l : List Charge} {left : Nat} (hs : Stocked env s T)
    (hcov : ∃ c ∈ l, c.Covers b) (hlog : Logged l (priceOf b.length + left) s.dev.trace) :
    Sat (bsWrite b : Act env Ref).1 s (fun _ _ => True)
      (fun f s' => (∃ e, f = .err e) → Kept env s s' ∧ Stocked env s' T ∧
        Logged l left s'.dev.trace) := by
  have hlog₁ : Logged l (clusters b.length + 1 + (clusters b.length + 1 + left)) s.dev.trace :=
    hlog.mono (by unfold priceOf; omega)
  refine sat_handle ((storeWrite_stocked (B := .unbounded) trivial hs hcov hlog₁).mono
    (fun _ _ _ => trivial)
    fun _ _ h => h) ?_ (fun _ _ ⟨_, he⟩ => by cases he) (fun _ _ ⟨_, he⟩ => by cases he)
  rintro e s₁ ⟨hk₁, hst₁, hl₁, -, -, hfull, -⟩
  have hfull := hfull (by simp)
  obtain ⟨hk₂, hst₂, hl₂⟩ := refuse_stocked hst₁ hfull hl₁
  refine sat_get_bind (Within.sat_ite (fun _ => ?_) fun _ => ?_)
  · refine sat_bind (sat_modify_bind (commit_stocked hst₂ hl₂)) ?_ ?_
    · rintro _ s₃ ⟨hk₃, hst₃, hl₃⟩
      refine (storeWrite_stocked (B := .unbounded) trivial hst₃ hcov hl₃).mono
        (fun _ _ _ => trivial) ?_
      rintro f s₄ ⟨hk₄, hst₄, hl₄, -⟩ -
      exact ⟨((hk₁.trans hk₂).trans hk₃).trans hk₄, hst₄, hl₄⟩
    · rintro f s₃ ⟨⟨hk₃, hst₃, hl₃⟩, -⟩ -
      exact ⟨(hk₁.trans hk₂).trans hk₃, hst₃, hl₃.mono (by omega)⟩
  · exact sat_modify_bind (sat_fail fun _ => ⟨hk₁.trans hk₂, hst₂, hl₂.mono (by omega)⟩)

/-! ## What stored blocks leave -/

/-- The table of blocks knows the key. -/
def FS.Knows (s : FS) (k : Dedup.Key) : Prop := s.ddt.lookup k ≠ none

theorem storeWrite_knows (b : Bytes) {k : Dedup.Key} (h : s.Knows k) :
    Sat (storeWrite env b) s (fun _ s' => s'.Knows k) (fun _ s' => s'.Knows k) := by
  refine ((storeWrite_sat b s).and (storeWrite_ddt b s)).mono ?_ ?_
  · rintro r s' ⟨⟨-, hwrote⟩, -⟩
    unfold FS.Knows
    cases hwrote with
    | @hit e ddt f p' hlook hincr hbm hddt hdev =>
        obtain ⟨⟨e', he', -⟩, hother⟩ := Dedup.Table.incr_spec hlook hincr
        rw [show s'.ddt = _ from hddt]
        by_cases hk : k = env.blake3 b
        · rw [hk, he']
          exact Option.some_ne_none _
        · rw [hother k hk]
          exact h
    | miss hlook henc halloc hin hbm hddt hdev =>
        rw [show s'.ddt = _ from hddt]
        by_cases hk : k = env.blake3 b
        · rw [hk, Dedup.Table.lookup_add]
          exact Option.some_ne_none _
        · rw [Dedup.Table.lookup_add_of_ne hk]
          exact h
  · rintro f s' ⟨-, hddt⟩
    unfold FS.Knows
    rw [hddt]
    exact h

theorem commit_knows {k : Dedup.Key} (h : s.Knows k) :
    Sat (commit env) s (fun _ s' => s'.Knows k) (fun _ s' => s'.Knows k) := by
  refine (commit_sat s).mono ?_ ?_
  · intro _ s' hc
    rw [hc.rest]
    exact h
  · intro _ s' hc
    rw [hc.rest]
    exact h

/-- Storing a block, or failing to, forgets no other. -/
theorem bsWrite_knows (b : Bytes) {k : Dedup.Key} (h : s.Knows k) :
    Sat (bsWrite b : Act env Ref).1 s (fun _ s' => s'.Knows k) (fun _ s' => s'.Knows k) := by
  refine sat_handle (storeWrite_knows b h) ?_ (fun _ h => h) (fun _ h => h)
  intro e s₁ h₁
  refine sat_get_bind (Within.sat_ite (fun _ => ?_) fun _ => sat_modify_bind (sat_fail h₁))
  have hrefuse : (refuse s₁).Knows k := h₁
  exact sat_bind (sat_modify_bind (commit_knows hrefuse)) (fun _ _ h₂ => storeWrite_knows b h₂)
    (fun _ _ h => h)

theorem writeAll_knows {k : Dedup.Key} : ∀ (bs : List Bytes) {s : FS}, s.Knows k →
    Sat (bs.mapM bsWrite : Act env (List Ref)).1 s (fun _ s' => s'.Knows k) (fun _ s' => s'.Knows k)
  | [], _, h => sat_pure h
  | b :: bs, _, h => by
      rw [List.mapM_cons]
      exact sat_bind (bsWrite_knows b h)
        (fun _ _ h₁ => sat_bind (writeAll_knows bs h₁) (fun _ _ h₂ => sat_pure h₂) (fun _ _ h => h))
        (fun _ _ h => h)

/-! ## The first block of a call -/

/-- The block that a write stores for record `i`, if it does not carry the record over. -/
def FS.recordBlock (env : Env) (s : FS) (refs : List Ref) (oldSize newSize rs off : Nat)
    (data : Bytes) (i : Nat) : Option Bytes :=
  if 2 ^ 64 ≤ i * rs + rs then none
  else match refs[i]? with
    | none => some (mergeRecord [] (i * rs) (min (i * rs + rs) newSize) off data)
    | some old =>
        if ¬ (i * rs < off + data.length ∧ off < min (i * rs + rs) newSize) ∧
            min (i * rs + rs) newSize ≤ oldSize then none
        else (s.bsRead env old).toOption.map fun bytes =>
          mergeRecord bytes (i * rs) (min (i * rs + rs) newSize) off data

/-- The first block that a write of `data` at `off` stores. -/
def FS.firstRecord (env : Env) (s : FS) (in_ : Inode) (off : Nat) (data : Bytes) : Option Bytes :=
  if data.isEmpty ∨ 2 ^ 64 ≤ off + data.length then none
  else match s.loadRefs env in_, writeSize in_ (max in_.size.toNat (off + data.length)) with
    | .ok refs, .ok (rs, _) =>
        (List.range (divCeil (max in_.size.toNat (off + data.length)) rs)).findSome?
          (s.recordBlock env refs in_.size.toNat (max in_.size.toNat (off + data.length)) rs off
            data)
    | _, _ => none

/-- The first block that replacing the contents by `blob` stores. -/
def firstChunk (blob : Bytes) : Option Bytes := if 2 ^ 64 ≤ blob.length then none
    else (chunk blob).1.head?

/-- The first block that a call stores in the state `s`. -/
def FS.firstBlock (env : Env) (s : FS) : Op → Option Bytes
  | .writeFile id data => (s.regular id).toOption.bind fun _ => firstChunk data
  | .writeAt id off data => (s.regular id).toOption.bind fun in_ => s.firstRecord env in_ off data
  | .append id data =>
    (s.regular id).toOption.bind fun in_ => s.firstRecord env in_ in_.size.toNat data
  | .truncate id newSize => (s.regular id).toOption.bind fun in_ =>
      if newSize = in_.size.toNat then none
      else (s.getData env in_).toOption.bind fun blob => firstChunk (resize blob newSize)
  | _ => none

section Blocks

variable {refs : List Ref} {oldSize newSize rs off id : Nat} {data blob : Bytes} {in_ : Inode}

theorem starts_setData (h : firstChunk blob = some b) :
    Starts (setData id in_ blob : Act env Unit) s b := by
  unfold firstChunk at h
  split at h
  · cases h
  · rename_i hlen
    obtain ⟨rest, hrest⟩ := List.head?_eq_some_iff.mp h
    unfold setData
    rw [if_neg hlen, hrest, List.mapM_cons]
    exact ((starts_bsWrite s b).bind _).bind _

theorem starts_writeRecord {i : Nat}
    (h : s.recordBlock env refs oldSize newSize rs off data i = some b) :
    Starts (writeRecord refs oldSize newSize rs off data i : Act env (Ref × List Ref)) s b := by
  unfold FS.recordBlock at h
  unfold writeRecord
  split at h
  · cases h
  · rename_i hpanic
    rw [if_neg hpanic]
    cases hold : refs[i]? with
    | none =>
        rw [hold] at h
        cases h
        exact (starts_bsWrite s _).bind _
    | some old =>
        rw [hold] at h
        dsimp only at h ⊢
        split at h
        · cases h
        · rename_i hno
          rw [if_neg hno]
          cases hread : s.bsRead env old with
          | error e =>
              rw [hread] at h
              cases h
          | ok bytes =>
              rw [hread] at h
              cases h
              refine .after (a := s) rfl (.after (a := bytes) ?_ ((starts_bsWrite s _).bind _))
              rw [hread]
              rfl

theorem not_panics_of_recordBlock {i : Nat}
    (h : s.recordBlock env refs oldSize newSize rs off data i = some b) :
    ¬ 2 ^ 64 ≤ i * rs + rs := by
  intro hpanic
  unfold FS.recordBlock at h
  rw [if_pos hpanic] at h
  cases h

theorem carries_writeRecord {i : Nat}
    (h : s.recordBlock env refs oldSize newSize rs off data i = none)
    (hpanic : ¬ 2 ^ 64 ≤ i * rs + rs) (hread : ∀ r ∈ refs, ∃ bytes, s.bsRead env r = .ok bytes) :
    ∃ v, (writeRecord refs oldSize newSize rs off data i : Act env (Ref × List Ref)).1 s =
        .ok v s := by
  unfold FS.recordBlock at h
  unfold writeRecord
  rw [if_neg hpanic] at h ⊢
  cases hold : refs[i]? with
  | none =>
      rw [hold] at h
      cases h
  | some old =>
      rw [hold] at h
      dsimp only at h ⊢
      split at h
      · rename_i hcarry
        rw [if_pos hcarry]
        exact ⟨_, rfl⟩
      · obtain ⟨bytes, hbytes⟩ := hread old (List.mem_of_getElem? hold)
        rw [hbytes] at h
        cases h

theorem starts_writeAtLocked (h : s.firstRecord env in_ off data = some b)
    (hread : ∀ refs, s.loadRefs env in_ = .ok refs → ∀ r ∈ refs, ∃ bytes,
      s.bsRead env r = .ok bytes) :
    Starts (writeAtLocked id in_ off data : Act env Inode) s b := by
  unfold FS.firstRecord at h
  split at h
  · cases h
  · rename_i hgo
    rw [not_or] at hgo
    cases hload : s.loadRefs env in_ with
    | error e =>
        rw [hload] at h
        cases h
    | ok refs =>
        cases hsize : writeSize in_ (max in_.size.toNat (off + data.length)) with
        | error e =>
            rw [hload, hsize] at h
            cases h
        | ok p =>
            rw [hload, hsize] at h
            obtain ⟨done, i, rest, hrange, hi, hdone⟩ := List.findSome?_eq_some_iff.mp h
            unfold writeAtLocked
            rw [if_neg hgo.1]
            refine .after (a := s) rfl (.after (a := refs) ?_ ?_)
            · rw [hload]
              rfl
            rw [if_neg hgo.2]
            refine .after (a := p) ?_ (Starts.bind ?_ _)
            · rw [hsize]
              rfl
            rw [hrange]
            refine .mapM (fun j hj => carries_writeRecord (hdone j hj) ?_ (hread refs hload))
              (starts_writeRecord hi)
            have hsorted := List.pairwise_append.mp (hrange ▸ List.pairwise_lt_range)
            have hlt : j < i := hsorted.2.2 j hj i List.mem_cons_self
            have hmul : (j + 1) * p.1 ≤ i * p.1 := Nat.mul_le_mul_right _ hlt
            rw [Nat.add_mul] at hmul
            have hsafe := not_panics_of_recordBlock hi
            omega

theorem length_mergeRecord (old : Bytes) (recStart recEnd off : Nat) (data : Bytes) :
    (mergeRecord old recStart recEnd off data).length = recEnd - recStart := by
  unfold mergeRecord
  dsimp only
  rw [List.length_replicate]
  have hbase : (patch (List.replicate (recEnd - recStart) 0) 0
      (old.take (min old.length (recEnd - recStart)))).length = recEnd - recStart := by
    rw [length_patch (by rw [List.length_take, List.length_replicate]; omega),
      List.length_replicate]
  split
  · rw [length_patch (by rw [length_slice, hbase]; omega), hbase]
  · exact hbase

theorem length_recordBlock {i : Nat}
    (h : s.recordBlock env refs oldSize newSize rs off data i = some b) :
    b.length = min (i * rs + rs) newSize - i * rs := by
  unfold FS.recordBlock at h
  split at h
  · cases h
  · split at h
    · cases h
      exact length_mergeRecord _ _ _ _ _
    · split at h
      · cases h
      · obtain ⟨bytes, -, rfl⟩ := Option.map_eq_some_iff.mp h
        exact length_mergeRecord _ _ _ _ _

theorem length_firstRecord {r : List Ref} (hlaid : Laid (Names env s) in_ r blob)
    (h : s.firstRecord env in_ off data = some b) : 0 < b.length ∧ b.length ≤ 2 ^ 15 := by
  obtain ⟨log2, hsize, -, h15, -⟩ := writeSize_spec (max in_.size.toNat (off + data.length)) hlaid
  have hrs : 2 ^ log2.toNat ≤ 2 ^ 15 := Nat.pow_le_pow_right (by omega) h15
  unfold FS.firstRecord at h
  rw [hsize] at h
  split at h
  · cases h
  · split at h
    · rename_i hok
      cases hok
      obtain ⟨i, hi, hblock⟩ := List.exists_of_findSome?_eq_some h
      have hlt := (lt_divCeil_iff (Nat.two_pow_pos _)).mp (List.mem_range.mp hi)
      have hpos : 0 < 2 ^ log2.toNat := Nat.two_pow_pos _
      rw [length_recordBlock hblock]
      omega
    · cases h

theorem length_firstChunk (h : firstChunk blob = some b) : 0 < b.length ∧ b.length ≤ 2 ^ 15 := by
  unfold firstChunk at h
  split at h
  · cases h
  · obtain ⟨hrecs, hlog2⟩ := chunk_spec blob
    have hmem := List.mem_of_mem_head? h
    rw [hrecs] at hmem
    have hne : blob ≠ [] := by
      rintro rfl
      rw [splitRecords_nil] at hmem
      cases hmem
    have hrs : 2 ^ (chunk blob).2.toNat ≤ 2 ^ 15 := Nat.pow_le_pow_right (by omega) (hlog2 hne).2
    have hpos : 0 < 2 ^ (chunk blob).2.toNat := Nat.two_pow_pos _
    obtain ⟨i, hi, rfl⟩ := List.mem_map.mp hmem
    have hlt := (lt_divCeil_iff hpos).mp (List.mem_range.mp hi)
    rw [length_slice]
    omega

theorem charge_covers (hpos : 0 < b.length) (hlen : b.length ≤ 2 ^ 15) :
    (∃ c ∈ charge b, c.Covers b) ∧ priceOf b.length ≤ price (charge b) := by
  have hsplit : splitRecords b (2 ^ 15) = [b] := by
    have hone : divCeil b.length (2 ^ 15) = 1 := by
      unfold divCeil
      omega
    have hself : slice b (0 * 2 ^ 15) (2 ^ 15) = b := by
      rw [Nat.zero_mul]
      unfold slice
      rw [List.drop_zero, List.take_of_length_le hlen]
    rw [splitRecords_eq_map, hone, List.range_one, List.map_singleton, hself]
  obtain ⟨hsub, hprice⟩ := chargeAt_subset (k := 15) (by omega) b
  have hat : chargeAt b 15 = [.record b] := by
    unfold chargeAt
    rw [hsplit]
    rfl
  rw [hat] at hsub hprice
  exact ⟨⟨.record b, hsub List.mem_cons_self, rfl⟩, hprice⟩

theorem regular_of_ok (h : s.regular id = .ok in_) : id < s.inodes.cap ∧
    in_ = s.inodes.slots id := by
  by_cases hid : id < s.inodes.cap
  · unfold FS.regular FS.getInode at h
    rw [Inode.Table.get_of_lt hid] at h
    simp only [Except.mapError, ok_bind] at h
    split at h
    · cases h
    · cases h
      exact ⟨hid, rfl⟩
  · unfold FS.regular FS.getInode Inode.Table.get at h
    rw [if_pos (Nat.not_lt.mp hid)] at h
    cases h

theorem eq_ok_of_toOption {ε : Type} {x : Except ε α} {a : α} (h : x.toOption = some a) :
    x = .ok a := by
  cases x with
  | error e => cases h
  | ok a' =>
      cases h
      rfl

theorem Starts.map {x : Act env α} (h : Starts x s b) (g : α → β) : Starts (g <$> x) s b := by
  rw [map_eq_pure_bind]
  exact h.bind _

theorem Starts.regular {body : FS → Inode → Act env α} (hreg : (s.regular id).toOption = some in_)
    (h : Starts (body s in_) s b) :
    Starts (do
      let s ← Within.get
      let in_ ← Within.ofExcept (s.regular id)
      body s in_) s b := by
  refine .after (a := s) rfl (.after (a := in_) ?_ h)
  rw [eq_ok_of_toOption hreg]
  rfl

theorem starts_writeRange {off : Nat} (hl : env.Lawful)
    (hlaid : ∀ id, id < s.inodes.cap → ∃ refs blob,
      Laid (Names env s) (s.inodes.slots id) refs blob)
    (hreg : (s.regular id).toOption = some in_) (h : s.firstRecord env in_ off data = some b) :
    Starts (writeAtLocked id in_ off data : Act env Inode) s b ∧ 0 < b.length ∧
        b.length ≤ 2 ^ 15 := by
  obtain ⟨hid, rfl⟩ := regular_of_ok (eq_ok_of_toOption hreg)
  obtain ⟨refs, blob, hblob⟩ := hlaid id hid
  refine ⟨starts_writeAtLocked h ?_, length_firstRecord hblob h⟩
  intro refs' hload r hr
  rw [hblob.loadRefs hl] at hload
  cases hload
  obtain ⟨b', hgood, -⟩ := hblob.good_of_mem (List.mem_append_left _ hr)
  exact ⟨b', hgood.read hl⟩

theorem starts_truncate {newSize : Nat} (hreg : (s.regular id).toOption = some in_)
    (hsize : ¬ newSize = in_.size.toNat) (hdata : (s.getData env in_).toOption = some blob)
    (h : firstChunk (resize blob newSize) = some b) :
        Starts (truncate id newSize : Act env Unit) s b := by
  unfold truncate
  refine .regular hreg ?_
  rw [if_neg hsize]
  refine .after (a := blob) ?_ (starts_setData h)
  rw [eq_ok_of_toOption hdata]
  rfl

/-- A call only reads until it stores its first block, which is one record. -/
theorem starts_of_firstBlock {op : Op} (handles : List Handle) (hl : env.Lawful)
    (hlaid : ∀ id, id < s.inodes.cap → ∃ refs blob,
      Laid (Names env s) (s.inodes.slots id) refs blob)
    (h : s.firstBlock env op = some b) :
    Starts (actOf env handles op) s b ∧ 0 < b.length ∧ b.length ≤ 2 ^ 15 := by
  cases op with
  | writeFile id data =>
      obtain ⟨in_, hreg, hb⟩ := Option.bind_eq_some_iff.mp h
      have hstarts : Starts (writeFile id data : Act env Unit) s b := by
        unfold writeFile
        exact .regular hreg (starts_setData hb)
      exact ⟨hstarts.map _, length_firstChunk hb⟩
  | writeAt id off data =>
      obtain ⟨in_, hreg, hb⟩ := Option.bind_eq_some_iff.mp h
      obtain ⟨hrange, hlen⟩ := starts_writeRange hl hlaid hreg hb
      have hstarts : Starts (writeAt id off data : Act env Unit) s b := by
        unfold writeAt
        exact .regular hreg (hrange.bind _)
      exact ⟨hstarts.map _, hlen⟩
  | append id data =>
      obtain ⟨in_, hreg, hb⟩ := Option.bind_eq_some_iff.mp h
      obtain ⟨hrange, hlen⟩ := starts_writeRange hl hlaid hreg hb
      have hstarts : Starts (append id data : Act env Nat) s b := by
        unfold append
        exact .regular hreg (hrange.bind _)
      exact ⟨hstarts.map _, hlen⟩
  | truncate id newSize =>
      obtain ⟨in_, hreg, hb⟩ := Option.bind_eq_some_iff.mp h
      split at hb
      · cases hb
      · rename_i hsize
        obtain ⟨blob, hdata, hb⟩ := Option.bind_eq_some_iff.mp hb
        exact ⟨(starts_truncate hreg hsize hdata hb).map _, length_firstChunk hb⟩
  | _ => cases h

end Blocks

end Fs
end BloomFS
