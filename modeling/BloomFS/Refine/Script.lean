/-
Running a list of operations.

`script` runs operations on the machine as long as each of them answers and meets a
condition.  When the ledger at the end is clear and the device has room for it, the
file system goes through the same run with the same answers.
-/
import BloomFS.Refine.Exact
import BloomFS.Refine.Remount

namespace BloomFS
namespace Refine

open Bytes Exec Block Dir Fs Store Spec

variable {env : Env} {l : List Charge} {k : Nat} {s : Session} {t t' : State}

/-- The file system follows the machine, with the ledger `l` to spend and `k`
commits to go. -/
structure Track (env : Env) (l : List Charge) (k : Nat) (s : Session) (t : State) : Prop where
  rep : Rep env s.fs t
  ledger : t.log <+: l
  roomy : Roomy l s.fs
  slotted : Slotted l s.fs
  seq : s.fs.ub.seq.toNat + k < 2 ^ 64

theorem Track.mono {k' : Nat} (h : Track env l k s t) (hk : k' ≤ k) : Track env l k' s t :=
  ⟨h.rep, h.ledger, h.roomy, h.slotted, by have := h.seq; omega⟩

theorem execOf_eq_actOf {op : Op} (hop : Answers op) (handles : List Handle) :
    execOf env handles op = (actOf env handles op).1 := by
  cases op with
  | commit => exact hop.elim
  | _ => rfl

theorem inSession_of_answers {op : Op} (hop : Answers op) : op.InSession := by
  cases op with
  | remount => exact hop.elim
  | _ => exact trivial

/-- No two blocks in play collide, and no block is refused. -/
def Undisturbed (env : Env) (s : Session) : Prop :=
  InPlay env s.fs.dev.trace ∧ .refused ∉ s.fs.dev.trace

theorem Track.undisturbed (hc : Clear env l) (h : Track env l k s t) : Undisturbed env s :=
  ⟨hc.inPlay h.rep h.ledger, hc.not_refused h.roomy h.rep h.ledger⟩

theorem act_of_perform {op : Op} {r : Reply} {s' : Session}
    (does : perform env op s = (.ok r, s')) (hop : Answers op) {α : Type} {x : Act env α}
    {g : α → Reply} (hact : actOf env s.handles op = g <$> x) :
    ∃ a, x.1 s.fs = .ok a s'.fs ∧ r = g a := by
  rw [perform_eq_call (inSession_of_answers hop), call, execOf_eq_actOf hop, hact] at does
  cases hx : x.1 s.fs with
  | ok a fs =>
    have hrun : (g <$> x).1 s.fs = .ok (g a) fs := bind_of_ok hx
    rw [hrun] at does
    cases does
    exact ⟨a, rfl, rfl⟩
  | error f fs =>
    have hrun : (g <$> x).1 s.fs = .error f fs := bind_of_error hx
    rw [hrun] at does
    cases does

theorem ran_of_perform {op : Op} {r : Reply} {s' : Session}
    (does : perform env op s = (.ok r, s')) (hop : Answers op) {x : Act env Unit}
    (hact : actOf env s.handles op = (fun _ => Reply.unit) <$> x) : x.1 s.fs = .ok () s'.fs := by
  obtain ⟨_, hrun, -⟩ := act_of_perform does hop hact
  exact hrun

theorem Track.act (hc : Clear env l) (h : Track env l k s t) (hr : Ready t s.handles) {op : Op}
    (hop : Answers op) (hap : Apart t op) {r : Reply}
    (hrun : (planOf env s.handles op).1 t = .ok r t') (hpre : t'.log <+: l) :
    ∃ s', perform env op s = (.ok r, s') ∧ s'.handles = handlesAfter op true s.handles ∧
      Track env l k s' t' := by
  obtain ⟨fs, hact, hrep, hsteady⟩ := act_exact hc h.roomy h.rep hr hop hap hrun hpre
  have hroomy := h.roomy.of_steady hsteady
  have hseq : SeqAt s.fs.ub.seq fs :=
    ((actOf env s.handles op).2 _ (seqAt_closed s.fs.ub.seq) s.fs (.inr rfl)).ok hact
  refine ⟨⟨fs, handlesAfter op true s.handles⟩, ?_, rfl, hrep, hpre, hroomy,
    h.slotted.of_steady hsteady, ?_⟩
  · rw [perform_eq_call (inSession_of_answers hop), call, execOf_eq_actOf hop, hact]
  · rcases hseq with href | hseq
    · exact absurd href (hc.not_refused hroomy hrep hpre)
    · rw [hseq]
      exact h.seq

theorem Track.committed (h : Track env l (k + 1) s t) :
    ∃ s', perform env .commit s = (.ok .unit, s') ∧ s'.handles = s.handles ∧
    Track env l k s' t := by
  have hk := h.seq
  obtain ⟨fs, hrun, hrep, hsteady, hseq⟩ :=
    commit_exact h.roomy h.slotted h.rep h.ledger (by omega)
  refine ⟨⟨fs, s.handles⟩, ?_, rfl, hrep, h.ledger, h.roomy.of_steady hsteady,
    h.slotted.of_steady hsteady, ?_⟩
  · have hexec : execOf env s.handles .commit s.fs = .ok .unit fs := bind_of_ok hrun
    show call env .commit s = _
    rw [call, hexec]
    rfl
  · show fs.ub.seq.toNat + k < 2 ^ 64
    omega

theorem Track.reopened (h : Track env l (k + 1) s t) (hheld : Fs.Held env s.fs) :
    ∃ s₁ s₂, perform env .commit s = (.ok .unit, s₁) ∧
      perform env (.remount s.fs.bs.key) s₁ = (.ok .unit, s₂) ∧ s₂.handles = [] ∧
      Track env l k s₂ t.reopen := by
  obtain ⟨s₁, hdoes, -, h₁⟩ := h.committed
  obtain ⟨hrun, -⟩ := perform_commit hdoes ⟨_, rfl⟩
  have hc : Committed env s.fs s₁.fs := (commit_sat s.fs).ok hrun
  obtain ⟨fs, hmount⟩ := hheld.mounts hc s₁.fs.ticks s₁.fs.orders
  have hrep := h.rep.reopen hheld hrun hmount
  obtain ⟨r, bs, -, hfs, hreads⟩ := hheld.reload hc hmount
  have hdev : fs.dev = s₁.fs.dev := by rw [hfs]; rfl
  have hub : fs.ub = s₁.fs.ub := by
    rw [hfs, hc.ub]
    exact hreads.ub
  have hcap : fs.inodes.cap = s₁.fs.inodes.cap := hrep.cap.symm.trans h₁.rep.cap
  refine ⟨s₁, ⟨fs, []⟩, hdoes, perform_of_mount hmount, rfl, hrep, h.ledger, ⟨?_, ?_⟩, ?_, ?_⟩
  · show fs.dev.Reliable
    rw [hdev]
    exact h₁.roomy.reliable
  · show fs.ub.dataStart.toNat + price l ≤ fs.dev.blocks
    rw [hdev, hub]
    exact h₁.roomy.room
  · show Slotted l fs
    unfold Slotted
    rw [hdev, hub, hcap]
    exact h₁.slotted
  · show fs.ub.seq.toNat + k < 2 ^ 64
    rw [hub]
    exact h₁.seq

/-! ## The start -/

theorem Track.start {key : Option Bytes} {d : Disk} {fs : FS} (h : Formatted env key d fs)
    (hd : d.Reliable)
    (hroom : 2 + 2 * Cow.slotBlocks d.blocks defaultInodeCount defaultDdtReserve +
      price l ≤ d.blocks)
    (hprice : price l * Dedup.Table.recSize ≤ defaultDdtReserve) (hk : 2 + k < 2 ^ 64) :
    Track env l k ⟨fs, []⟩ (fresh env) where
  rep := rep_of_formatted h
  ledger := List.nil_prefix
  roomy := by
    refine ⟨fun c n => ?_, ?_⟩
    · rw [h.fault]
      exact hd c n
    · rw [h.placed.dataStart, h.layout, h.blocks]
      exact hroom
  slotted := by
    have hle : fs.bm.marshalLen + 57 + defaultDdtReserve + defaultInodeCount * Inode.inodeSize ≤
        Cow.slotBlocks d.blocks defaultInodeCount defaultDdtReserve * Cow.blk :=
      le_slotBlocks fs.bm h.total
    unfold Alloc.Bitmap.marshalLen Alloc.Bitmap.words at hle
    rw [h.total] at hle
    unfold Slotted
    rw [h.blocks, h.cap, h.layout]
    omega
  seq := by
    show fs.ub.seq.toNat + k < 2 ^ 64
    rw [h.seq]
    exact hk

theorem slots_fresh (env : Env) : Slots (fresh env).view [] where
  nodup := List.nodup_nil
  free_lt _ h := absurd h List.not_mem_nil
  next_le := show 1 ≤ defaultInodeCount by decide
  cap_lt := show defaultInodeCount < 2 ^ 64 by decide
  unused id hid := by
    have hne : id ≠ 0 := by
      rintro rfl
      exact hid ⟨Nat.zero_lt_one, List.not_mem_nil⟩
    show ¬ ((fresh env).node id).outline.isDir
    rw [fresh_node_of_ne hne]
    decide
  opened _ h := absurd rfl h
  held _ := rfl
  handle_lt _ h := absurd h List.not_mem_nil
  root := ⟨⟨Nat.zero_lt_one, List.not_mem_nil⟩, rfl⟩

theorem pages_fresh (env : Env) (d : Nat) : ((fresh env).view.node d).pages = [] := by
  by_cases hd : d = 0
  · subst hd
    rfl
  · show ((fresh env).node d).pages = []
    rw [fresh_node_of_ne hd]

theorem naming_fresh (env : Env) (d id : Nat) : ((fresh env).view.node d).naming id = 0 := by
  unfold Outline.naming Outline.entries
  rw [pages_fresh]
  exact ite_self 0

theorem linked_fresh (env : Env) : Linked (fresh env).view (fun _ => 0) := by
  have hnames : ∀ id, (fresh env).view.names id = 0 := fun id =>
    Finset.sum_eq_zero fun d _ => naming_fresh env d id
  have hblank : ∀ id, ¬ ((fresh env).view.node id).isDir →
      ((fresh env).view.node id).nlink = 0 := by
    intro id hid
    have hne : id ≠ 0 := by
      rintro rfl
      exact hid rfl
    show ((fresh env).node id).nlink = 0
    rw [fresh_node_of_ne hne]
  refine ⟨fun d _ hd => ?_, fun id h => ?_, fun id hid => ?_, fun id _ => ?_,
    fun id => naming_fresh env id id, ?_, fun id hu hid _ => ?_⟩
  · rw [pages_fresh]
    exact paged_nil
  · rw [hnames] at h
    cases h
  · rw [hblank id hid, hnames]
    exact UInt32.toNat_zero
  · rw [hnames]
    exact Nat.zero_le _
  · rw [hnames]
  · have h0 : id = 0 := Nat.lt_one_iff.mp hu.1
    subst h0
    exact absurd rfl hid

/-! ## Scripts -/

/-- Run the operations on the machine, as long as they answer and meet `C`. -/
def script (env : Env) (C : View → Op → Prop) [∀ v op, Decidable (C v op)] :
    List Op → State → List Handle → Option (State × List Handle)
  | [], t, handles => some (t, handles)
  | op :: ops, t, handles =>
      if C t.view op then
        match (planOf env handles op).1 t with
        | .ok _ t' => script env C ops t' (handlesAfter op true handles)
        | .error _ _ => none
      else none

section Script

variable {C : View → Op → Prop} [∀ v op, Decidable (C v op)] {op : Op} {ops : List Op}
  {handles handles' : List Handle}

theorem script_cons (h : script env C (op :: ops) t handles = some (t', handles')) :
    C t.view op ∧ ∃ r t₁, (planOf env handles op).1 t = .ok r t₁ ∧
      script env C ops t₁ (handlesAfter op true handles) = some (t', handles') := by
  unfold script at h
  by_cases hC : C t.view op
  · rw [if_pos hC] at h
    cases hx : (planOf env handles op).1 t with
    | ok r t₁ =>
      rw [hx] at h
      exact ⟨hC, r, t₁, rfl, h⟩
    | error f t₁ =>
      rw [hx] at h
      cases h
  · rw [if_neg hC] at h
    cases h

theorem script_congr {env' : Env}
    (h : ∀ handles op, planOf env handles op = planOf env' handles op) (ops : List Op)
    (t : State) (handles : List Handle) :
    script env C ops t handles = script env' C ops t handles := by
  induction ops generalizing t handles with
  | nil => rfl
  | cons op ops ih => simp only [script, h, ih]

theorem script_grows : ∀ {ops : List Op} {t : State} {handles : List Handle},
    script env C ops t handles = some (t', handles') → t.log <+: t'.log
  | [], t, handles, h => by
    cases h
    exact List.prefix_refl _
  | op :: ops, t, handles, h => by
    obtain ⟨-, r, t₁, hrun, hrest⟩ := script_cons h
    have hle := (planOf env handles op).le_final t
    rw [hrun] at hle
    exact List.IsPrefix.trans hle (script_grows hrest)

/-- The machine answers the operation, or it is a commit. -/
def Plays (op : Op) : Prop := Answers op ∨ op = .commit

theorem Plays.inSession (h : Plays op) : op.InSession := by
  rcases h with hans | rfl
  · exact inSession_of_answers hans
  · exact trivial

theorem apart_of_fair (hf : Fair t.view op) : Apart t op := by
  cases op with
  | rename src sn dst dn =>
    intro hp hs hq hd old hfind
    obtain ⟨⟨name, id⟩, he, rfl, rfl⟩ := mem_of_find hfind
    exact hf hp hs hq hd id he
  | _ => exact trivial

/-- The same run, with the inodes it makes. -/
def trail (env : Env) (C : View → Op → Prop) [∀ v op, Decidable (C v op)] :
    List Op → State → List Handle → Option (State × List Handle × List (Nat × Nat))
  | [], t, handles => some (t, handles, [])
  | op :: ops, t, handles =>
      if C t.view op then
        match (planOf env handles op).1 t with
        | .ok r t' =>
            (trail env C ops t' (handlesAfter op true handles)).map fun x =>
              (x.1, x.2.1, bornOf op r t'.view ++ x.2.2)
        | .error _ _ => none
      else none

theorem script_trail : ∀ (ops : List Op) (t : State) (handles : List Handle),
    script env C ops t handles = (trail env C ops t handles).map fun x => (x.1, x.2.1)
  | [], t, handles => rfl
  | op :: ops, t, handles => by
    unfold script trail
    split
    · cases (planOf env handles op).1 t with
      | ok r t' =>
        show script env C ops t' _ = _
        rw [script_trail ops t', Option.map_map]
        rfl
      | error f t' => rfl
    · rfl

theorem trail_cons {b : List (Nat × Nat)} (h : trail env C (op :: ops) t handles =
    some (t', handles', b)) : C t.view op ∧ ∃ r t₁ b', (planOf env handles op).1 t = .ok r t₁ ∧
      trail env C ops t₁ (handlesAfter op true handles) = some (t', handles', b') ∧
      b = bornOf op r t₁.view ++ b' := by
  unfold trail at h
  by_cases hC : C t.view op
  · rw [if_pos hC] at h
    cases hx : (planOf env handles op).1 t with
    | ok r t₁ =>
      rw [hx] at h
      obtain ⟨x, hx', hxs⟩ := Option.map_eq_some_iff.mp h
      cases hxs
      exact ⟨hC, r, t₁, x.2.2, rfl, hx', rfl⟩
    | error f t₁ =>
      rw [hx] at h
      cases h
  · rw [if_neg hC] at h
    cases h

theorem trail_grows {b : List (Nat × Nat)} (h : trail env C ops t handles =
    some (t', handles', b)) : t.log <+: t'.log := by
  have hscript : script env C ops t handles = some (t', handles') := by
    rw [script_trail, h]
    rfl
  exact script_grows hscript

/-- The file system goes through the operations, if every state on the way meets `J`.
`R` says how its own states are reached. -/
theorem trail_exact (hc : Clear env l) {P : Session → Op → Outcome → Prop}
    {R : List (Nat × Nat) → Session → Prop} {J : State → List Handle → Prop}
    (hreach : ∀ b s op r s', R b s → perform env op s = (.ok r, s') → op.InSession →
      P s op (.ok r) → R (b ++ births op (.ok r) s') s')
    (hready : ∀ t handles, J t handles → Ready t handles)
    (hstep : ∀ t t' handles op r, J t handles → C t.view op → Change handles t.view op r t'.view →
      J t' (handlesAfter op true handles))
    (hP : ∀ b s t op r, R b s → Plays op → Rep env s.fs t → J t s.handles →
      C t.view op → Apart t op ∧ P s op (.ok r))
    (hops : ∀ op ∈ ops, Plays op) {b b' : List (Nat × Nat)} (hr : R b s)
    (h : Track env l (k + ops.length) s t) (hj : J t s.handles)
    (htrail : trail env C ops t s.handles = some (t', handles', b')) (hpre : t'.log <+: l) :
    ∃ s', R (b ++ b') s' ∧ s'.handles = handles' ∧ Track env l k s' t' ∧ J t' handles' := by
  induction ops generalizing s t b b' with
  | nil =>
    cases htrail
    rw [List.append_nil]
    exact ⟨s, hr, rfl, h, hj⟩
  | cons op ops ih =>
    obtain ⟨hCop, r, t₁, b₁, hrun, hrest, rfl⟩ := trail_cons htrail
    have hplays := hops op List.mem_cons_self
    have hops' : ∀ op ∈ ops, Plays op := fun op hop => hops op (List.mem_cons_of_mem _ hop)
    obtain ⟨hap, hp⟩ := hP b s t op r hr hplays h.rep hj hCop
    rw [← List.append_assoc]
    rcases hplays with hans | rfl
    · have hrd := hready t _ hj
      obtain ⟨s₁, hdoes, hh, htrack⟩ := h.act hc hrd hans hap hrun ((trail_grows hrest).trans hpre)
      have hchange := (planOf_change hc.lawful hrd hans).ok hrun
      have hj₁ := hstep t t₁ _ op r hj hCop hchange
      rw [← hh] at hrest hj₁
      have hr₁ := hreach b s op r s₁ hr hdoes (inSession_of_answers hans) hp
      rw [births_eq htrack.rep hchange] at hr₁
      exact ih hops' hr₁ (htrack.mono (Nat.le_succ _)) hj₁ hrest
    · -- the machine answers a commit without doing anything
      cases hrun
      obtain ⟨s₁, hdoes, hh, htrack⟩ := h.committed
      have hrest' : trail env C ops t s₁.handles = some (t', handles', b₁) := by
        rw [hh]
        exact hrest
      rw [← hh] at hj
      exact ih hops' (hreach b s .commit .unit s₁ hr hdoes trivial hp) htrack hj hrest'

/-- The file system goes through the script, if every state on the way meets `J`. -/
theorem script_exact (hc : Clear env l) {D : Disk → Prop} {P : Session → Op → Outcome → Prop}
    {J : State → List Handle → Prop} (hready : ∀ t handles, J t handles → Ready t handles)
    (hstep : ∀ t t' handles op r, J t handles → C t.view op → Change handles t.view op r t'.view →
      J t' (handlesAfter op true handles))
    (hP : ∀ past s t op r, Run env D P past s → Plays op → Rep env s.fs t → J t s.handles →
      C t.view op → Apart t op ∧ P s op (.ok r))
    (hops : ∀ op ∈ ops, Plays op) {past : List Session} (run : Run env D P past s)
    (h : Track env l (k + ops.length) s t) (hj : J t s.handles)
    (hscript : script env C ops t s.handles = some (t', handles')) (hpre : t'.log <+: l) :
    ∃ past' s', Run env D P past' s' ∧ s'.handles = handles' ∧ Track env l k s' t' ∧
        J t' handles' := by
  rw [script_trail] at hscript
  obtain ⟨⟨t₁, handles₁, b⟩, htrail, heq⟩ := Option.map_eq_some_iff.mp hscript
  cases heq
  obtain ⟨s', ⟨past', run'⟩, hrest⟩ :=
    trail_exact (R := fun _ s => ∃ past, Run env D P past s) (b := []) hc
    (fun _ s op r s' hr does _ hp => hr.elim fun past run => ⟨_, run.step does hp⟩) hready hstep
    (fun _ s t op r hr hop hrep hj hCop => hr.elim fun past run =>
      hP past s t op r run hop hrep hj hCop)
    hops ⟨past, run⟩ h hj htrail hpre
  exact ⟨past', s', run', hrest⟩

theorem fair_exact (hc : Clear env l) {D : Disk → Prop} {P : Session → Op → Outcome → Prop}
    (hC : ∀ v op, C v op → Fair v op)
    (hP : ∀ past s t op r, Run env D P past s → Plays op → Rep env s.fs t →
      Orderly t.view s.handles → C t.view op → P s op (.ok r))
    (hops : ∀ op ∈ ops, Plays op) {past : List Session} (run : Run env D P past s)
    (h : Track env l (k + ops.length) s t) (hj : Orderly t.view s.handles)
    (hscript : script env C ops t s.handles = some (t', handles')) (hpre : t'.log <+: l) :
    ∃ past' s', Run env D P past' s' ∧ s'.handles = handles' ∧ Track env l k s' t' ∧
      Orderly t'.view handles' :=
  script_exact (J := fun t handles => Orderly t.view handles) hc (fun _ _ => Orderly.ready)
    (fun _ _ _ _ _ hj hCop => hj.step (hC _ _ hCop))
    (fun past s t op r run hop hrep hj hCop =>
      ⟨apart_of_fair (hC _ _ hCop), hP past s t op r run hop hrep hj hCop⟩)
    hops run h hj hscript hpre

theorem fair_step (hc : Clear env l) (hC : ∀ v op, C v op → Fair v op) (hop : Answers op)
    (h : Track env l k s t) (hj : Orderly t.view s.handles)
    (hscript : script env C [op] t s.handles = some (t', handles')) (hpre : t'.log <+: l) :
    ∃ r s', perform env op s = (.ok r, s') ∧ s'.handles = handles' ∧ Track env l k s' t' ∧
      Orderly t'.view s'.handles := by
  obtain ⟨hCop, r, t₁, hrun, hrest⟩ := script_cons hscript
  cases hrest
  have hfair := hC _ _ hCop
  obtain ⟨s', hdoes, hh, htrack⟩ := h.act hc hj.ready hop (apart_of_fair hfair) hrun hpre
  have hchange := (planOf_change hc.lawful hj.ready hop).ok hrun
  exact ⟨r, s', hdoes, hh, htrack, hh ▸ hj.step hfair hchange⟩

theorem trail_step (hc : Clear env l) (hC : ∀ v op, C v op → Fair v op)
    (h : Track env l k s t) (hj : Orderly t.view s.handles) {b : List (Nat × Nat)}
    (htrail : trail env C (op :: ops) t s.handles = some (t', handles', b)) (hpre : t'.log <+: l)
    (hop : Answers op) :
    ∃ r s' t₁ b', perform env op s = (.ok r, s') ∧ s'.handles = handlesAfter op true s.handles ∧
      Track env l k s' t₁ ∧ Orderly t₁.view s'.handles ∧
      trail env C ops t₁ s'.handles = some (t', handles', b') ∧ b = bornOf op r t₁.view ++ b' := by
  obtain ⟨hCop, r, t₁, b', hrun, hrest, hborn⟩ := trail_cons htrail
  have hfair := hC _ _ hCop
  obtain ⟨s', does, hh, htrack⟩ := h.act hc hj.ready hop (apart_of_fair hfair) hrun
    ((trail_grows hrest).trans hpre)
  have hchange := (planOf_change hc.lawful hj.ready hop).ok hrun
  exact ⟨r, s', t₁, b', does, hh, htrack, hh ▸ hj.step hfair hchange, hh ▸ hrest, hborn⟩

theorem life_exact (hc : Clear env l) {D : Disk → Prop} {P : Session → Op → Outcome → Prop}
    {R : Session → Prop} (hC : ∀ v op, C v op → Fair v op)
    (hP : ∀ born s t op r, Life env D P R born s → Plays op → Rep env s.fs t →
      Orderly t.view s.handles → C t.view op → P s op (.ok r))
    (hops : ∀ op ∈ ops, Plays op) {born b : List (Nat × Nat)} (life : Life env D P R born s)
    (h : Track env l (k + ops.length) s t) (hj : Orderly t.view s.handles)
    (htrail : trail env C ops t s.handles = some (t', handles', b)) (hpre : t'.log <+: l) :
    ∃ s', Life env D P R (born ++ b) s' ∧ s'.handles = handles' ∧ Track env l k s' t' ∧
      Orderly t'.view handles' :=
  trail_exact (R := Life env D P R) (J := fun t handles => Orderly t.view handles) hc
    (fun _ _ _ _ _ life does hop hp => life.call does hop hp) (fun _ _ => Orderly.ready)
    (fun _ _ _ _ _ hj hCop => hj.step (hC _ _ hCop))
    (fun born s t op r life hop hrep hj hCop =>
      ⟨apart_of_fair (hC _ _ hCop), hP born s t op r life hop hrep hj hCop⟩)
    hops life h hj htrail hpre

theorem life_reopens (hc : Clear env l) {D : Disk → Prop} (hD : ∀ d, D d → Cow.MetaSound d)
    {P : Session → Op → Outcome → Prop} {R : Session → Prop} (hC : ∀ v op, C v op → Fair v op)
    (hP : ∀ born s t op r, Life env D P R born s → Plays op → Rep env s.fs t →
      Orderly t.view s.handles → C t.view op → P s op (.ok r))
    (hops : ∀ op ∈ ops, Plays op) {born b : List (Nat × Nat)} (life : Life env D P R born s)
    (h : Track env l (k + 1 + ops.length) s t) (hj : Orderly t.view s.handles)
    (htrail : trail env C ops t s.handles = some (t', handles', b)) (hpre : t'.log <+: l)
    (hR : ∀ s, Rep env s.fs t' → s.handles = handles' → R s) :
    ∃ s', Life env D P R (born ++ b) s' ∧ s'.handles = [] ∧ Track env l k s' t'.reopen ∧
      Orderly t'.view handles' := by
  obtain ⟨s₁, life₁, hh, htrack, ho⟩ := life_exact hc hC hP hops life h hj htrail hpre
  obtain ⟨s₁', s₂, hcommit, hmount, hnone, htrack'⟩ := htrack.reopened (life₁.held hD)
  exact ⟨s₂, life₁.reopen hcommit hmount (hR s₁ htrack.rep hh), hnone, htrack', ho⟩

/-- Mild operations need no order. -/
theorem mild_exact (hc : Clear env l) {D : Disk → Prop} {P : Session → Op → Outcome → Prop}
    (hC : ∀ v op, C v op → mild op)
    (hP : ∀ past s t op r, Run env D P past s → Plays op → Rep env s.fs t → Ready t s.handles →
      C t.view op → P s op (.ok r))
    (hops : ∀ op ∈ ops, Plays op) {past : List Session} (run : Run env D P past s)
    (h : Track env l (k + ops.length) s t) (hj : Ready t s.handles)
    (hscript : script env C ops t s.handles = some (t', handles')) (hpre : t'.log <+: l) :
    ∃ past' s', Run env D P past' s' ∧ s'.handles = handles' ∧ Track env l k s' t' ∧
      Ready t' handles' := by
  refine script_exact hc (fun _ _ h => h) (fun _ _ _ _ _ hj hm => hj.mild (hC _ _ hm))
    (fun past s t op r run hop hrep hj hm => ⟨?_, hP past s t op r run hop hrep hj hm⟩) hops run h
    hj hscript hpre
  have hmild := hC _ _ hm
  cases op with
  | rename => cases hmild
  | _ => exact trivial

/-- After the last operation nothing has to be in order. -/
theorem last_exact (hc : Clear env l) {D : Disk → Prop} {P : Session → Op → Outcome → Prop}
    (hP : ∀ r, P s op (.ok r)) (hop : Answers op) (hap : Apart t op) {past : List Session}
    (run : Run env D P past s) (h : Track env l k s t) (hj : Ready t s.handles)
    (hscript : script env C [op] t s.handles = some (t', handles')) (hpre : t'.log <+: l) :
    ∃ past' s', Run env D P past' s' ∧ s'.handles = handles' ∧ Track env l k s' t' := by
  obtain ⟨-, r, t₁, hrun, hrest⟩ := script_cons hscript
  cases hrest
  obtain ⟨s₁, hdoes, hh, htrack⟩ := h.act hc hj hop hap hrun hpre
  exact ⟨_, s₁, .step run hdoes (hP r), hh, htrack⟩

end Script

theorem orderly_fresh (env : Env) : Orderly (fresh env).view [] :=
    ⟨slots_fresh env, _, linked_fresh env⟩

end Refine
end BloomFS
