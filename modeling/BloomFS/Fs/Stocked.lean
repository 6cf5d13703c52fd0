/-
The store's calls as the file system makes them.

`Stocked env s T` says that the references to the blocks of `s` are the keys in
`T`.  `bsWrite` adds a key and `bsRelease` takes one out, automatic commits
included.  Each statement is under the assumption that the blocks within the
budget break nothing, and says what is known when a block is refused.
-/
import BloomFS.Fs.Steps
import BloomFS.Store.Ledger

namespace BloomFS
namespace Fs

open Bytes Exec Block Store

variable {env : Env}

/-- What the store's calls leave alone. -/
structure Beside (s s' : FS) : Prop where
  inodes : s'.inodes = s.inodes
  bs : s'.bs = s.bs
  openCount : s'.openCount = s.openCount
  freeInodes : s'.freeInodes = s.freeInodes
  ticks : s'.ticks = s.ticks
  orders : s'.orders = s.orders
  dirCache : s'.dirCache = s.dirCache
  nextInode : s'.ub.nextInode = s.ub.nextInode
  rootInode : s'.ub.rootInode = s.ub.rootInode
  dataStart : s'.ub.dataStart = s.ub.dataStart
  inodeCount : s'.ub.inodeCount = s.ub.inodeCount

theorem Beside.refl (s : FS) : Beside s s := ⟨rfl, rfl, rfl, rfl, rfl, rfl, rfl, rfl, rfl, rfl, rfl⟩

theorem Beside.trans {s₁ s₂ s₃ : FS} (h : Beside s₁ s₂) (h' : Beside s₂ s₃) : Beside s₁ s₃ where
  inodes := h'.inodes.trans h.inodes
  bs := h'.bs.trans h.bs
  openCount := h'.openCount.trans h.openCount
  freeInodes := h'.freeInodes.trans h.freeInodes
  ticks := h'.ticks.trans h.ticks
  orders := h'.orders.trans h.orders
  dirCache := h'.dirCache.trans h.dirCache
  nextInode := h'.nextInode.trans h.nextInode
  rootInode := h'.rootInode.trans h.rootInode
  dataStart := h'.dataStart.trans h.dataStart
  inodeCount := h'.inodeCount.trans h.inodeCount

theorem Beside.of_setPool {s s' : FS} (h : s' = s.setPool s'.pool) : Beside s s' := by
  rw [h]
  exact ⟨rfl, rfl, rfl, rfl, rfl, rfl, rfl, rfl, rfl, rfl, rfl⟩

/-- The device had no room for the blocks of the history, unless it fails or the
codec does. -/
def Full (env : Env) (s : FS) : Prop :=
  env.Lawful → (∀ b, .hash b ∈ s.dev.trace → Storable env b) → s.dev.Sound (.write .data) →
    s.dev.blocks < s.ub.dataStart.toNat + cost s.dev.trace

theorem Full.of_extends {s s' : FS} {es : List Event} (h : Full env s)
    (hx : Disk.Extends s.dev s'.dev es) (hds : s'.ub.dataStart = s.ub.dataStart) : Full env s' := by
  intro hl hs hd
  have := h hl (fun b hb => hs b ((after_of_extends hx).subset hb)) fun n => by
    rw [← hx.fault]
    exact hd n
  rw [hx.blocks, hds, hx.trace, cost_append]
  omega

/-- The references to the blocks of `s` are the keys in `T`. -/
structure Stocked (env : Env) (s : FS) (T : Multiset Dedup.Key) : Prop where
  stock : Stock env s.bs s.ub.dataStart.toNat s.pool T
  placed : s.ub.Placed s.dev.blocks
  card : T.card ≤ cost s.dev.trace
  below : Below (s.ub.dataStart.toNat + cost s.dev.trace) s.bm
  refused : .refused ∈ s.dev.trace → Full env s
  total : s.bm.total = s.dev.blocks

/-- The ref `r` names block `b` in `s`. -/
def Names (env : Env) (s : FS) (r : Ref) (b : Bytes) : Prop := Good env s.bs s.pool r b

theorem Names.read (hl : env.Lawful) {s : FS} {r : Ref} {b : Bytes} (h : Names env s r b) :
    s.bsRead env r = .ok b := by
  have hr : Store.read env s.bs s.pool.dev r = .ok b := Good.read hl h
  show (Store.read env s.bs s.pool.dev r).mapError _ = _
  rw [hr, mapError_ok]

theorem Names.unique (hl : env.Lawful) {s : FS} {r : Ref} {b b' : Bytes} (h : Names env s r b)
    (h' : Names env s r b') : b = b' := Good.unique hl h h'

theorem Names.short {s : FS} {r : Ref} {b : Bytes} (h : Names env s r b) : b.length < 2 ^ 32 := by
  obtain ⟨_, -, -, hs⟩ := h
  exact hs.short

theorem Names.of_samePool {s s' : FS} {r : Ref} {b : Bytes} (h : Names env s r b)
    (hp : SamePool s s') : Names env s' r b := by
  unfold Names FS.pool at *
  rw [hp.dev, hp.bm, hp.ddt, hp.bs]
  exact h

theorem Stocked.of_samePool {s s' : FS} {T : Multiset Dedup.Key} (h : Stocked env s T)
    (hp : SamePool s s') : Stocked env s' T := by
  obtain ⟨n, hub⟩ := hp.ub
  have hpool : s'.pool = s.pool := by
    unfold FS.pool
    rw [hp.dev, hp.bm, hp.ddt]
  refine ⟨?_, ?_, ?_, ?_, ?_, ?_⟩
  · rw [hpool, hp.bs, hub]
    exact h.stock
  · rw [hub, hp.dev]
    exact h.placed.withNext n
  · rw [hp.dev]
    exact h.card
  · rw [hub, hp.dev, hp.bm]
    exact h.below
  · unfold Full
    rw [hub, hp.dev]
    exact h.refused
  · rw [hp.bm, hp.dev]
    exact h.total

/-- Every ref that is good stays good, and nothing outside the pool changes. -/
structure Kept (env : Env) (s s' : FS) : Prop where
  beside : Beside s s'
  blocks : s'.dev.blocks = s.dev.blocks
  fault : s'.dev.fault = s.dev.fault
  names : ∀ r b, Names env s r b → Names env s' r b

theorem Kept.refl (s : FS) : Kept env s s := ⟨.refl s, rfl, rfl, fun _ _ h => h⟩

theorem Kept.trans {s₁ s₂ s₃ : FS} (h : Kept env s₁ s₂) (h' : Kept env s₂ s₃) : Kept env s₁ s₃ :=
  ⟨h.beside.trans h'.beside, h'.blocks.trans h.blocks, h'.fault.trans h.fault,
    fun r b hr => h'.names r b (h.names r b hr)⟩

/-- The blocks within the budget broke no assumption. -/
def calm (env : Env) (B : Budget) : Proviso (Closed env) where
  holds s := ¬ B.Broken env s.dev.trace
  stays := by
    refine lasting_closed (R := fun tr => ¬ ¬ B.Broken env tr) (fun tr tr' hpre h hno => h ?_)
    rintro ⟨tr₀, h₀, hbad⟩
    exact hno ⟨tr₀, h₀.trans hpre, hbad⟩

/-- The device has no room for the ledger `l`, unless it fails or the codec
does. -/
def Starved (env : Env) (l : List Charge) (s : FS) : Prop :=
  env.Lawful → (∀ b, (∃ c ∈ l, c.Covers b) → Storable env b) → s.dev.Sound (.write .data) →
    s.dev.blocks < s.ub.dataStart.toNat + price l

theorem Starved.of_kept {l : List Charge} {s s' : FS} (h : Starved env l s) (hk : Kept env s s') :
    Starved env l s' := by
  intro hl hs hd
  rw [hk.blocks, hk.beside.dataStart]
  refine h hl hs (fun n => ?_)
  rw [← hk.fault]
  exact hd n

theorem Full.starved {l : List Charge} {left : Nat} {s : FS} (h : Full env s)
    (hlog : Logged l left s.dev.trace) : Starved env l s := by
  intro hl hs hd
  have := h hl (fun b hb => hs b (hlog.covered b hb)) hd
  have := hlog.paid
  omega

/-- Why a call of the store stops: a block was refused, or a reference count is
exhausted. -/
inductive Halt (env : Env) (B : Budget) : Fault Error → FS → Prop
  | refused {f : Fault Error} {s : FS} (l : List Charge) (hfits : B.fits l)
      (href : .refused ∈ s.dev.trace) (hshort : Starved env l s)
      (hkind : ∀ e, f = .err e → e.Storage) : Halt env B f s
  | saturated {s : FS} (l : List Charge) (hfits : B.fits l) (hmany : 2 ^ 32 ≤ price l + 1) :
      Halt env B .panic s

section Calls

variable {B : Budget} {l : List Charge} {left : Nat} {s : FS} {T : Multiset Dedup.Key} {b : Bytes}

theorem logged_hash (s' : FS) {es : List Event} (hcov : ∃ c ∈ l, c.Covers b)
    (hlog : Logged l (clusters b.length + 1 + left) s.dev.trace)
    (hx : Disk.Extends s.dev s'.dev (.hash b :: es)) (hes : ∀ ev ∈ es, IntoFree s.bm ev) :
    Logged l left s'.dev.trace ∧ cost s'.dev.trace = cost s.dev.trace +
        (clusters b.length + 1) := by
  have hno : ∀ b', .hash b' ∉ es := by
    intro b' hb'
    obtain ⟨_, _, h, -⟩ := hes _ hb'
    cases h
  rw [hx.trace]
  refine ⟨hlog.hash hcov hno, ?_⟩
  rw [cost_append, cost, cost_eq_zero hno]

/-- What a call of the store leaves stocked, whether it recorded the block or stopped. -/
theorem Stocked.of_hash {s' : FS} {T' : Multiset Dedup.Key} {es : List Event} {m : Nat}
    (hs : Stocked env s T)
    (hbeside : Beside s s') (hub : s'.ub = s.ub) (hx : Disk.Extends s.dev s'.dev (.hash b :: es))
    (hes : ∀ ev ∈ es, IntoFree s.bm ev)
    (hcost : cost s'.dev.trace = cost s.dev.trace + (clusters b.length + 1))
    (hst : Stock env s.bs s.ub.dataStart.toNat s'.pool T') (hcard : T'.card ≤ T.card + 1)
    (hbelow : Below (s.ub.dataStart.toNat + cost s.dev.trace + m) s'.bm)
      (hm : m ≤ clusters b.length)
    (htotal : s'.bm.total = s.bm.total) : Stocked env s' T' := by
  have hblocks : s'.dev.blocks = s.dev.blocks := hx.blocks
  refine ⟨?_, ?_, ?_, ?_, fun hr => ?_, htotal.trans (hs.total.trans hblocks.symm)⟩
  · rw [hbeside.bs, hub]
    exact hst
  · rw [hub, hblocks]
    exact hs.placed
  · have := hs.card
    omega
  · rw [hub, hcost]
    exact hbelow.mono (by omega)
  · -- writing a block records no refusal
    rw [hx.trace] at hr
    rcases List.mem_append.mp hr with hr | hr
    · exact (hs.refused hr).of_extends hx (by rw [hub])
    · rcases List.mem_cons.mp hr with hr | hr
      · cases hr
      · obtain ⟨_, _, h, -⟩ := hes _ hr
        cases h

/-- A sound device refuses a block only when its clusters run out. -/
theorem Stocked.full_of_failed {s' : FS} {es : List Event} {f : Fault Store.Error}
    (hs : Stocked env s T)
    (hw : WriteFailed env s.bs b s.pool f s'.pool) (hf : f ≠ .panic) (hub : s'.ub = s.ub)
    (hx : Disk.Extends s.dev s'.dev (.hash b :: es))
    (hcost : cost s'.dev.trace = cost s.dev.trace + (clusters b.length + 1)) : Full env s' := by
  intro hl hstor hsound
  have hblocks : s'.dev.blocks = s.dev.blocks := hx.blocks
  have hmem : .hash b ∈ s'.dev.trace := by
    rw [hx.trace]
    exact List.mem_append_right _ List.mem_cons_self
  have hd : s.pool.dev.Sound (.write .data) := by
    intro n
    show s.dev.fault _ n = none
    rw [← hx.fault]
    exact hsound n
  have hshort : s.dev.blocks < s.ub.dataStart.toNat + cost s.dev.trace + clusters b.length :=
    hw.short hf hs.total hs.below hl (hstor b hmem) hd
  rw [hblocks, hub, hcost]
  omega

theorem Kept.of_pool {s' : FS} {es : List Event} (hbeside : Beside s s')
    (hx : Disk.Extends s.dev s'.dev es)
    (hgood : ∀ r b, Good env s.bs s.pool r b → Good env s.bs s'.pool r b) : Kept env s s' := by
  refine ⟨hbeside, hx.blocks, hx.fault, fun r b h => ?_⟩
  unfold Names
  rw [hbeside.bs]
  exact hgood r b h

theorem storeWrite_stocked (hfits : B.fits l) (hs : Stocked env s T) (hcov : ∃ c ∈ l, c.Covers b)
    (hlog : Logged l (clusters b.length + 1 + left) s.dev.trace) :
    Sat (storeWrite env b) s
      (fun r s' => (calm env B).holds s' → Kept env s s' ∧ Stocked env s' (env.blake3 b ::ₘ T) ∧
        Names env s' r b ∧ Logged l left s'.dev.trace)
      (fun f s' => Kept env s s' ∧ Stocked env s' T ∧ Logged l left s'.dev.trace ∧
        (f = .panic → 2 ^ 32 ≤ price l + 1) ∧ f ≠ .hang ∧ (f ≠ .panic → Full env s') ∧
        ∀ e, f = .err e → e.Storage) := by
  refine (storeWrite_sat b s).mono ?_ ?_
  · rintro r s' ⟨hrest, hw⟩ hc
    have hbeside := Beside.of_setPool hrest
    have hub : s'.ub = s.ub := by rw [hrest]; rfl
    obtain ⟨es, hx, hes⟩ := hw.extends
    obtain ⟨hlog', hcost⟩ := logged_hash s' hcov hlog hx hes
    obtain ⟨hst, hr, hkept⟩ := hw.stock hs.stock (B.inPlay_of_not_broken hc hlog' hfits)
    refine ⟨.of_pool hbeside hx hkept, ?_, ?_, hlog'⟩
    · exact hs.of_hash hbeside hub hx hes hcost hst (Multiset.card_cons _ _).le
        (hw.below hs.below) le_rfl hw.keeping.total
    · unfold Names
      rw [hbeside.bs]
      exact hr
  · rintro f s' ⟨hrest, e', hf, hw⟩
    have hbeside := Beside.of_setPool hrest
    have hub : s'.ub = s.ub := by rw [hrest]; rfl
    obtain ⟨es, hx, hes⟩ := hw.extends
    obtain ⟨hlog', hcost⟩ := logged_hash s' hcov hlog hx hes
    obtain ⟨hst, hkept⟩ := hw.stock hs.stock
    have hcounted : s.pool.bm.Counted := by
      obtain ⟨L, hsp⟩ := hs.stock.space
      exact hsp.counted
    have hstocked : Stocked env s' T :=
      hs.of_hash hbeside hub hx hes hcost hst (Nat.le_succ _) (m := 0) (hw.below hcounted hs.below)
        (Nat.zero_le _) (hw.keeping hcounted).total
    subst hf
    refine ⟨.of_pool hbeside hx hkept, hstocked, hlog', fun hp => ?_, ?_, fun hp => ?_,
      fun e he => ?_⟩
    · cases e' with
      | panic =>
        have hcard := hw.exhausted hs.stock
        have := hs.card
        have := hlog.paid
        omega
      | err c => cases hp
      | hang => cases hp
    · cases e' with
      | hang => exact absurd rfl hw.ne_hang
      | err c => simp [Fault.map]
      | panic => simp [Fault.map]
    · refine hs.full_of_failed hw ?_ hub hx hcost
      rintro rfl
      exact hp rfl
    · cases e' with
      | err c =>
        cases he
        trivial
      | panic => cases he
      | hang => cases he

/-- A commit writes below the data area. -/
theorem Committed.below {s' : FS} (hp : s.ub.Placed s.dev.blocks) (h : Committed env s s') :
    ∃ es, Disk.Extends s.dev s'.dev es ∧ (∀ o n left, .write o n left ∈ es →
      n < s.ub.dataStart.toNat) ∧ (∀ b, .hash b ∉ es) ∧ .refused ∉ es := by
  obtain ⟨tail, -, hx⟩ := h.dev
  refine ⟨_, hx, fun o n left hm => ?_, fun b hm => ?_, fun hm => ?_⟩
  · have hal := Cow.allowed_withLens.mp (Cow.commitEvents_allowed hm)
    exact (hp.allowed_disjoint h.advance hal).2.2.1
  · rcases commit_events hm with ⟨_, _, h⟩ | ⟨_, _, h⟩ | h <;> cases h
  · rcases commit_events hm with ⟨_, _, h⟩ | ⟨_, _, h⟩ | h <;> cases h

theorem CommitFailed.below {s' : FS} {e : Fault Error} (hp : s.ub.Placed s.dev.blocks)
    (h : CommitFailed s e s') :
    ∃ es, Disk.Extends s.dev s'.dev es ∧ (∀ o n left, .write o n left ∈ es →
      n < s.ub.dataStart.toNat) ∧ (∀ b, .hash b ∉ es) ∧ .refused ∉ es := by
  obtain ⟨es, hx, hal, -⟩ := h.dev
  refine ⟨es, hx, fun o n left hm => ?_, fun b hm => ?_, fun hm => ?_⟩
  · obtain ⟨hadv, hal⟩ := hal _ hm
    exact (hp.allowed_disjoint hadv hal).2.2.1
  · exact (hal _ hm).2
  · exact (hal _ hm).2

/-- Calls that write below the data area, and the frees of a commit. -/
theorem stocked_of_below {s' : FS} {es : List Event} (hs : Stocked env s T)
    (hlog : Logged l left s.dev.trace) (hb : Beside s s') (hplaced : s'.ub.Placed s'.dev.blocks)
    (hx : Disk.Extends s.dev s'.dev es)
    (hes : ∀ o n left, .write o n left ∈ es → n < s.ub.dataStart.toNat)
    (hno : ∀ b, .hash b ∉ es) (hfull : .refused ∈ es → Full env s) (hddt : s'.ddt = s.ddt)
    (hbm : s'.bm = s.bm ∨ s'.bm = s.bm.applyDeferred) :
    Kept env s s' ∧ Stocked env s' T ∧ Logged l left s'.dev.trace := by
  have hst : Stock env s.bs s.ub.dataStart.toNat s'.pool T ∧
      ∀ r b, Good env s.bs s.pool r b → Good env s.bs s'.pool r b :=
    hs.stock.of_below hx hes hddt hbm
  have hcounted : s.bm.Counted := by
    obtain ⟨L, hsp⟩ := hs.stock.space
    exact hsp.counted
  refine ⟨⟨hb, hx.blocks, hx.fault, fun r b hr => ?_⟩, ⟨?_, hplaced, ?_, ?_, fun hr => ?_, ?_⟩, ?_⟩
  · unfold Names
    rw [hb.bs]
    exact hst.2 r b hr
  · rw [hb.bs, hb.dataStart]
    exact hst.1
  · rw [hx.trace, cost_append]
    exact Nat.le_trans hs.card (Nat.le_add_right _ _)
  · rw [hb.dataStart, hx.trace, cost_append, cost_eq_zero hno, Nat.add_zero]
    rcases hbm with hbm | hbm
    · rw [hbm]
      exact hs.below
    · rw [hbm]
      exact below_applyDeferred hcounted hs.below
  · rw [hx.trace] at hr
    rcases List.mem_append.mp hr with hr | hr
    · exact (hs.refused hr).of_extends hx hb.dataStart
    · exact (hfull hr).of_extends hx hb.dataStart
  · rw [hx.blocks, ← hs.total]
    rcases hbm with hbm | hbm
    · rw [hbm]
    · rw [hbm, (Alloc.Bitmap.applyDeferred_spec hcounted).1]
  · rw [hx.trace]
    exact hlog.quiet hno

theorem commit_stocked (hs : Stocked env s T) (hlog : Logged l left s.dev.trace) :
    Sat (commit env) s
      (fun _ s' => Kept env s s' ∧ Stocked env s' T ∧ Logged l left s'.dev.trace)
      (fun f s' => (Kept env s s' ∧ Stocked env s' T ∧ Logged l left s'.dev.trace) ∧
        ∀ e, f = .err e → e.Storage) := by
  refine (commit_sat s).mono ?_ ?_
  · intro _ s' h
    obtain ⟨es, hx, hes, hno, hnr⟩ := h.below hs.placed
    refine stocked_of_below hs hlog ?_ ?_ hx hes hno (absurd · hnr) (by rw [h.rest]) (.inr h.bm)
    · constructor <;> first | rw [h.ub]; rfl | rw [h.rest]
    · rw [h.ub, hx.blocks]
      exact (hs.placed.successor h.advance _ _).withLens _ _ _
  · intro f s' h
    obtain ⟨es, hx, hes, hno, hnr⟩ := h.below hs.placed
    refine ⟨stocked_of_below hs hlog ?_ ?_ hx hes hno (absurd · hnr) (by rw [h.rest])
      (.inl (by rw [h.rest])), h.kind⟩
    · constructor <;> rw [h.rest]
    · rw [hx.blocks, h.rest]
      exact hs.placed

theorem refuse_stocked (hs : Stocked env s T) (hfull : Full env s)
    (hlog : Logged l left s.dev.trace) :
    Kept env s (refuse s) ∧ Stocked env (refuse s) T ∧ Logged l left (refuse s).dev.trace :=
  stocked_of_below hs hlog ⟨rfl, rfl, rfl, rfl, rfl, rfl, rfl, rfl, rfl, rfl, rfl⟩ hs.placed
    (refuse_extends s) (by simp) (by simp) (fun _ => hfull) rfl (.inl rfl)

theorem mem_refuse (s : FS) : .refused ∈ (refuse s).dev.trace :=
  List.mem_append_right _ List.mem_cons_self

theorem refused_lasting : Lasting (.refused ∈ ·) := fun _ _ hpre h => hpre.subset h

theorem bsWrite_under (hfits : B.fits l) (hs : Stocked env s T) (hcov : ∃ c ∈ l, c.Covers b)
    (hlog : Logged l (priceOf b.length + left) s.dev.trace) :
    Under (calm env B) (bsWrite b) s
      (fun r s' => Kept env s s' ∧ Stocked env s' (env.blake3 b ::ₘ T) ∧ Names env s' r b ∧
        Logged l left s'.dev.trace)
      (fun f s' => Halt env B f s') := by
  have hlog₁ : Logged l (clusters b.length + 1 + (clusters b.length + 1 + left)) s.dev.trace :=
    hlog.mono (by unfold priceOf; omega)
  have hfirst := storeWrite_stocked (B := B) hfits hs hcov hlog₁
  refine under_handle (E := fun f s' => Kept env s s' ∧ Stocked env s' T ∧
    Logged l (clusters b.length + 1 + left) s'.dev.trace ∧ (f = .panic → 2 ^ 32 ≤ price l + 1) ∧
    f ≠ .hang ∧ (f ≠ .panic → Full env s') ∧ ∀ e, f = .err e → e.Storage) ?_ ?_ ?_ ?_
  · refine hfirst.mono (fun r s' h hc => ?_) (fun f s' h _ => h)
    obtain ⟨hk, hst, hr, hl⟩ := h hc
    exact ⟨hk, hst, hr, hl.mono (by omega)⟩
  · rintro e s₁ - ⟨hk₁, hst₁, hl₁, -, -, hfull, hkind⟩
    have hfull := hfull (by simp)
    have hshort := hfull.starved hl₁
    refine under_get_bind (under_ite (fun _ => ?_) (fun _ => ?_))
    · -- the retry after a commit that made room
      obtain ⟨hk₂, hst₂, hl₂⟩ := refuse_stocked hst₁ hfull hl₁
      have hauto : Under (calm env B)
          (⟨autoCommit env, fun _ h => h.autoCommit⟩ : Act env Unit) s₁
          (fun _ s' => Kept env s₁ s' ∧ Stocked env s' T ∧
            Logged l (clusters b.length + 1 + left) s'.dev.trace ∧ .refused ∈ s'.dev.trace)
          (fun f s' => Halt env B f s') := by
        have hlast : Sat (commit env) (refuse s₁) _ _ :=
          lasting_commit refused_lasting (refuse s₁) (mem_refuse s₁)
        refine sat_modify_bind (((commit_stocked hst₂ hl₂).and hlast).mono ?_ ?_)
        · rintro _ s₃ ⟨⟨hk₃, hst₃, hl₃⟩, href⟩ -
          exact ⟨hk₂.trans hk₃, hst₃, hl₃, href⟩
        · rintro f s₃ ⟨⟨⟨hk₃, hst₃, hl₃⟩, hkind₃⟩, href⟩ -
          exact .refused l hfits href (hshort.of_kept (hk₂.trans hk₃)) hkind₃
      refine under_bind hauto (fun _ s₃ _ h₃ => ?_) (fun _ _ h => h)
      obtain ⟨hk₃, hst₃, hl₃, href⟩ := h₃
      have hlast : Sat (storeWrite env b) s₃ _ _ := (lasting_closed refused_lasting).write b s₃ href
      refine ((storeWrite_stocked (B := B) hfits hst₃ hcov hl₃).and hlast).mono ?_ ?_
      · rintro r s₄ ⟨h₄, -⟩ hc
        obtain ⟨hk₄, hst₄, hr, hl₄⟩ := h₄ hc
        exact ⟨(hk₁.trans hk₃).trans hk₄, hst₄, hr, hl₄⟩
      · rintro f s₄ ⟨⟨hk₄, -, -, -, -, -, hkind₄⟩, href₄⟩ -
        exact .refused l hfits href₄ (hshort.of_kept (hk₃.trans hk₄)) hkind₄
    · refine under_bind (Q := fun _ s' => Halt env B (.err e) s')
        (under_modify (.refused l hfits (mem_refuse s₁)
          (hshort.of_kept (refuse_stocked hst₁ hfull hl₁).1) hkind)) (fun _ _ _ h => under_fail h)
        (fun _ _ h => h)
  · rintro s' ⟨-, -, -, hmany, -⟩
    exact .saturated l hfits (hmany rfl)
  · rintro s' ⟨-, -, -, -, hno, -⟩
    exact absurd rfl hno

theorem bsRelease_under {r : Ref} {E : Fault Error → FS → Prop} (hs : Stocked env s T)
    (hmem : r.hash ∈ T) :
    Under (calm env B) (bsRelease r) s
      (fun _ s' => Beside s s' ∧ s'.dev = s.dev ∧ Stocked env s' (T.erase r.hash) ∧
        ∀ r' b', r'.hash ∈ T.erase r.hash → Names env s r' b' → Names env s' r' b') E := by
  refine (storeRelease_sat r s).mono ?_ ?_
  · rintro _ s' ⟨hrest, hr⟩ -
    have hb := Beside.of_setPool hrest
    have hdev : s'.dev = s.dev := hr.dev_eq
    have hub : s'.ub = s.ub := by rw [hrest]; rfl
    obtain ⟨hst, hkept⟩ := hr.stock hs.stock hmem
    refine ⟨hb, hdev, ⟨?_, ?_, ?_, ?_, ?_, ?_⟩, fun r' b' hr' hn => ?_⟩
    · rw [hb.bs, hub]
      exact hst
    · rw [hub, hdev]
      exact hs.placed
    · rw [hdev]
      exact (Multiset.card_le_card (Multiset.erase_le _ _)).trans hs.card
    · rw [hub, hdev]
      exact hr.below hs.below
    · unfold Full
      rw [hub, hdev]
      exact hs.refused
    · rw [hdev]
      exact hr.keeping.total.trans hs.total
    · unfold Names
      rw [hb.bs]
      exact hkept r' b' hr' hn
  · rintro f s' ⟨-, -, e, hlook, hzero⟩ -
    exact absurd hzero (hs.stock.positive _ e hlook)

end Calls

end Fs
end BloomFS
