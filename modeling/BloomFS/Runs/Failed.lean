/-
Data writes that fail.

A write that the store refuses at its first block changes nothing.  A write that is refused
later leaves references to the blocks stored so far, which nobody owns.
-/
import BloomFS.Fs.Refused
import BloomFS.Refine.Plain
import BloomFS.Runs.Generations
import BloomFS.Runs.OneFile

namespace BloomFS
namespace Runs

open Bytes Exec Block Dir Fs Store Spec Refine

variable {env : Env} {s s' : Session} {t : State} {op : Op} {b : Bytes} {e : Fs.Error}

/-- The calls that write the contents of a file. -/
def Writing : Op → Prop
  | .writeFile _ _ | .writeAt _ _ _ | .append _ _ | .truncate _ _ => True
  | _ => False

/-- Calls that return, on ids that are handed out.  The ones that fail in the store are refused
the first block they store. -/
def Prompt (env : Env) (s : Session) (op : Op) (out : Outcome) : Prop :=
  Returns out ∧ (∀ e, out = .error (.err e) → e.Storage → ∃ b, s.fs.firstBlock env op = some b ∧
    Refused env s.fs b) ∧ (∀ id ∈ op.subjects, s.fs.InUse id) ∧ op.Aside env s.fs

theorem prompt_of_tended (hl : env.Lawful) (s : Session) (t : State) (op : Op) (r : Reply)
    (hop : Plays op)
    (hrep : Rep env s.fs t) (hj : Orderly t.view s.handles) (h : Tended t.view op) :
    Prompt env s op (.ok r) := by
  obtain ⟨-, hreturns, -, hsub, haside⟩ := valid_of_tended hl s t op r hop hrep hj h
  exact ⟨hreturns, fun _ he => (by cases he), hsub, haside⟩

/-- Every directory that is handed out has links. -/
def DirsLinked (s : Session) : Prop :=
  ∀ id, s.fs.InUse id → s.fs.IsDir id → (s.fs.inodes.slots id).nlink ≠ 0

/-- A call that is refused its first block. -/
theorem refused_state (hl : env.Lawful) (hrep : Rep env s.fs t) (hop : op.InSession)
    (hfirst : s.fs.firstBlock env op = some b) (hb : Refused env s.fs b)
    (does : perform env op s = (.error (.err e), s')) :
    (bsWrite b : Act env Ref).1 s.fs = .error (.err e) s'.fs ∧ s'.handles = s.handles ∧
      0 < b.length ∧ b.length ≤ 2 ^ 15 := by
  obtain ⟨refs, lost, hf, -⟩ := hrep.filled
  obtain ⟨hstarts, hlen⟩ := starts_of_firstBlock s.handles hl
    (fun id hid => ⟨_, _, hf.laid id hid⟩) hfirst
  obtain ⟨f, fs, hfs⟩ := hb
  have hact := hstarts.refused hfs
  have hexec : execOf env s.handles op s.fs = .error f fs := by
    cases op with
    | commit => cases hfirst
    | _ => exact hact
  have hhandles : handlesAfter op false s.handles = s.handles := by
    cases op with
    | close => cases hfirst
    | _ => rfl
  rw [perform_eq_call hop, call, hexec] at does
  cases does
  exact ⟨hfs, hhandles, hlen⟩

/-- It leaves everything the machine sees. -/
theorem refused_rep (hl : env.Lawful) (hrep : Rep env s.fs t) (hop : op.InSession)
    (hfirst : s.fs.firstBlock env op = some b) (hb : Refused env s.fs b)
    (does : perform env op s = (.error (.err e), s')) :
    Rep env s'.fs { t with paid := t.paid ++ [.data b] } ∧ s'.handles = s.handles ∧
      s'.fs.ddt = s.fs.ddt ∧ s'.fs.inodes = s.fs.inodes := by
  obtain ⟨hrun, hhandles, hpos, hlen⟩ := refused_state hl hrep hop hfirst hb does
  obtain ⟨hcov, hprice⟩ := charge_covers hpos hlen
  have hlog := State.log_paid t (.data b)
  have hlogged : Logged (t.log ++ charge b) (priceOf b.length + 0) s.fs.dev.trace :=
    (hrep.logged.append (charge b)).mono (by omega)
  have hcov' : ∃ c ∈ t.log ++ charge b, c.Covers b := by
    obtain ⟨c, hc, hb⟩ := hcov
    exact ⟨c, List.mem_append_right _ hc, hb⟩
  have hkept (T : Multiset Dedup.Key) (hst : Stocked env s.fs T) :
      Kept env s.fs s'.fs ∧ Stocked env s'.fs T ∧ Logged (t.log ++ charge b) 0 s'.fs.dev.trace :=
    (bsWrite_kept hst hcov' hlogged).error hrun ⟨e, rfl⟩
  have hpaid : Rep env s.fs { t with paid := t.paid ++ [.data b] } :=
    { hrep with logged := by rw [hlog]; exact hlogged.mono (by omega) }
  obtain ⟨refs, lost, hf, -⟩ := hrep.filled
  refine ⟨hpaid.of_kept fun T hst => ?_, hhandles, (bsWrite_ddt b s.fs).error hrun,
    (hkept _ hf.stocked).1.beside.inodes⟩
  rw [hlog]
  exact hkept T hst

theorem prompt_rep (hl : env.Lawful) {born : List (Nat × Nat)}
    (life : Life env Cow.MetaSound (Prompt env) DirsLinked born s)
    (hplay : InPlay env s.fs.dev.trace) :
    ∃ t, Rep env s.fs t ∧ Orderly t.view s.handles ∧ t.count = t.next := by
  induction life with
  | start blank _ run =>
    exact ⟨fresh env, rep_of_formatted (formatted_of_ok blank run), orderly_fresh env, rfl⟩
  | @call born s s' op out life does hop hp ih =>
      obtain ⟨hreturns, hrefused, hlive, haside⟩ := hp
      obtain ⟨t, hrep, ho, hlev⟩ := ih (hplay.of_subset (trace_grows hop does).subset)
      have hfair := (hrep.fair hl ho.ready.neat).mpr ⟨Op.current_of_subjects hlive, haside⟩
      by_cases hstore : ∃ e, out = .error (.err e) ∧ e.Storage
      · -- the store refuses the first block
        obtain ⟨e, rfl, hkind⟩ := hstore
        obtain ⟨b, hfirst, hb⟩ := hrefused e rfl hkind
        obtain ⟨hrep', hhandles, -⟩ := refused_rep hl hrep hop hfirst hb does
        rw [hhandles]
        exact ⟨_, hrep', ho, hlev⟩
      · have hgo : ¬ Stopped out s'.fs := by
          rintro ⟨f, rfl, hstop | ⟨-, e, rfl, hkind⟩⟩
          · rcases hreturns with ⟨r, hr⟩ | ⟨e, he⟩
            · cases hr
            · cases he
              exact hstop e rfl
          · exact hstore ⟨e, rfl, hkind⟩
        obtain ⟨t', hrep', hlev', ⟨r, -, hchange, hhandles⟩ | ⟨hview, hhandles, -⟩⟩ :=
          hrep.call hl ho hlev hop (apart_of_fair hfair) hlive hplay hgo does
        · rw [hhandles]
          exact ⟨t', hrep', ho.step hfair hchange, hlev'⟩
        · rw [hhandles]
          exact ⟨t', hrep', hview ▸ ho, hlev'⟩
  | @reopen born s s₁ s₂ life commits mounts hr ih =>
      obtain ⟨t, hrep, ho, hlev⟩ := ih (hplay.of_subset (trace_grows_remount commits mounts).subset)
      obtain ⟨hrep', hhandles⟩ := hrep.remount (life.held fun _ h => h) commits mounts
      rw [hhandles]
      refine ⟨t.reopen, hrep', ho.reopen (fun id hdir => ?_) hlev, hlev⟩
      have hused := ho.1.used_of_dir hdir
      have hlt : id < t.cap := Nat.lt_of_lt_of_le hused.1 ho.1.next_le
      have hlinks := hr id (hrep.inUse.mpr hused) (hrep.isDir.mpr ⟨hlt, hdir⟩)
      rw [(hrep.nodes id (hrep.cap ▸ hlt)).nlink] at hlinks
      exact hlinks

/-! ## Failures before the first block -/

theorem store_returns {id : Nat} {p : Payment} {n : UInt64 → Node} (hid : id < t.cap) :
    Sat (do
      pay p
      let c ← Spec.now env
      putNode id (n c) : Step Unit).1 t (fun _ _ => True) (fun f _ => f = .panic) := by
  have hput : ∀ t₁ : State, t₁.cap = t.cap → ∀ m, Sat (putNode id m).1 t₁ (fun _ _ => True)
      (fun f _ => f = .panic) := by
    intro t₁ hcap m
    refine sat_get_bind (Within.sat_ite (fun hle => ?_) fun _ => sat_modify trivial)
    rw [hcap] at hle
    omega
  exact hput { t with paid := t.paid ++ [p], ticks := t.ticks + 1 } rfl (n (env.clock t.ticks))

theorem setData_returns {id : Nat} {n : Node} {blob : Bytes} (hid : id < t.cap) :
    Sat (Spec.setData env id n blob).1 t (fun _ _ => True) (fun f _ => f = .panic) :=
  Within.sat_ite (fun _ => sat_panic rfl) fun _ => store_returns hid

theorem writeRange_returns {id off : Nat} {n : Node} {data : Bytes} (hid : id < t.cap) :
    Sat (Spec.writeRange env id n off data).1 t (fun _ _ => True) (fun f _ => f = .panic) :=
  Within.sat_ite (fun _ => sat_pure trivial) fun _ =>
    Within.sat_ite (fun _ => sat_panic rfl) fun _ => store_returns hid

/-- A call on a regular file that fails in the machine has found no regular file. -/
theorem untouched_of_plan {α β : Type} {id : Nat} {body : FS → Inode → Act env α}
    {plan : Node → Step β}
    {g : α → Reply} {g' : β → Reply} {t' : State} {fs : FS} (hrep : Rep env fs t)
    (hplan : id < t.cap → Sat (plan (t.node id)).1 t (fun _ _ => True) (fun f _ => f = .panic))
    (hrun : (g' <$> (Spec.regular id >>= plan) : Step Reply).1 t = .error (.err e) t') :
    ∃ f, (g <$> (do
      let s ← Within.get
      let in_ ← Within.ofExcept (s.regular id)
      body s in_) : Act env Reply).1 fs = .error f fs := by
  rcases regular_run hrep id with ⟨e', hx, -⟩ | ⟨hid, -, -, hy⟩
  · refine ⟨.err e', bind_of_error (show _ = _ from ?_)⟩
    show (Within.ofExcept (fs.regular id) >>= body fs : Act env α).1 fs = _
    rw [hx]
    rfl
  · have hlt : id < t.cap := by
      rw [hrep.cap]
      exact hid
    have hbind : (Spec.regular id >>= plan).1 t = (plan (t.node id)).1 t := bind_of_ok hy
    have hsat : Sat (Spec.regular id >>= plan).1 t (fun _ _ => True) (fun f _ => f = .panic) := by
      unfold Sat
      rw [hbind]
      exact hplan hlt
    have hmap : Sat (g' <$> (Spec.regular id >>= plan) : Step Reply).1 t (fun _ _ => True)
        (fun f _ => f = .panic) :=
      sat_map hsat
    cases hmap.error hrun

theorem untouched (hl : env.Lawful) (hrep : Rep env s.fs t) (ho : Orderly t.view s.handles)
    (hop : Writing op) (hkind : ¬ e.Storage) (does : perform env op s = (.error (.err e), s'))
    (hplay : InPlay env s'.fs.dev.trace) : s'.fs = s.fs := by
  have hstop : ¬ Stopped (.error (.err e)) s'.fs := by
    rintro ⟨f, hf, hstop | ⟨-, e', rfl, hkind'⟩⟩
    · cases hf
      exact hstop e rfl
    · cases hf
      exact hkind hkind'
  have hsession : op.InSession ∧ Apart t op ∧ Answers op := by
    cases op with
    | writeFile | writeAt | append | truncate => exact ⟨trivial, trivial, trivial⟩
    | _ => exact hop.elim
  obtain ⟨-, ⟨t', hran, -⟩ | h⟩ := perform_rep hl hrep ho.ready hsession.1 hsession.2.1 hplay does
  · have hact : ∃ f, (actOf env s.handles op).1 s.fs = .error f s.fs := by
      cases hran with
      | beside hno => exact absurd hsession.2.2 hno
      | failed _ hrun =>
          cases op with
          | writeFile id data => exact untouched_of_plan hrep setData_returns hrun
          | writeAt id off data => exact untouched_of_plan hrep writeRange_returns hrun
          | append id data =>
              exact untouched_of_plan hrep
                (fun hid => sat_bind (writeRange_returns hid) (fun _ _ _ => sat_pure trivial)
                  fun _ _ h => h) hrun
          | truncate id newSize =>
              refine untouched_of_plan hrep (fun hid => ?_) hrun
              exact Within.sat_ite (fun _ => sat_pure trivial) fun _ => setData_returns hid
          | _ => exact hop.elim
    obtain ⟨f, hf⟩ := hact
    have hexec : execOf env s.handles op s.fs = .error f s.fs := by
      cases op with
      | commit => exact hop.elim
      | _ => exact hf
    rw [perform_eq_call hsession.1, call, hexec] at does
    cases does
    rfl
  · exact absurd h hstop

/-- Whatever the reason, a write that fails changes neither the table of blocks nor an
inode nor the contents of a file. -/
theorem failed_writes_leak_nothing (hl : env.Lawful) {born : List (Nat × Nat)}
    (life : Life env Cow.MetaSound (Prompt env) DirsLinked born s) (hop : Writing op)
    (does : perform env op s = (.error (.err e), s')) (hp : Prompt env s op (.error (.err e)))
    (hplay : InPlay env s'.fs.dev.trace) :
    s'.fs.ddt = s.fs.ddt ∧ s'.fs.inodes = s.fs.inodes ∧
      ∀ id, s'.fs.readFile env id = s.fs.readFile env id := by
  have hsession : op.InSession := by
    cases op with
    | remount => exact hop.elim
    | _ => trivial
  obtain ⟨t, hrep, ho, hlev⟩ := prompt_rep hl life
    (hplay.of_subset (trace_grows hsession does).subset)
  by_cases hkind : e.Storage
  · obtain ⟨b, hfirst, hb⟩ := hp.2.1 e rfl hkind
    obtain ⟨hrep', -, hddt, hin⟩ := refused_rep hl hrep hsession hfirst hb does
    refine ⟨hddt, hin, fun id => ?_⟩
    have hsame : s'.fs.regular id = s.fs.regular id := by
      unfold FS.regular FS.getInode
      rw [hin]
    unfold FS.readFile
    rw [hsame]
    cases hreg : s.fs.regular id with
    | error f => rfl
    | ok in_ =>
        obtain ⟨hid, rfl⟩ := regular_of_ok hreg
        have hdata := hrep'.getData hl (hin ▸ hid)
        rw [hin] at hdata
        exact hdata.trans (hrep.getData hl hid).symm
  · have hsame : s'.fs = s.fs := untouched hl hrep ho hop hkind does hplay
    rw [hsame]
    exact ⟨rfl, rfl, fun _ => rfl⟩

/-! ## A full device -/

/-- A file of seven records of one cluster is written.  Seven clusters are left, and the next
record of eight is new. -/
structure Full (s : Session) : Prop where
  filling : Filling 404 s.fs 397
  regular : s.fs.regular 1 = .ok (s.fs.inodes.slots 1)
  inUse : s.fs.InUse 1
  new : s.fs.ddt.lookup (Env.plain.blake3 (record zeros 0)) = none
  play : InPlay Env.plain (s.fs.dev.trace ++ [.hash (record zeros 0)])

/-- The blocks of a one-file system, of a short file and of a long record do not collide. -/
theorem OneFile.short_apart {x : Nat → Bytes} {w n u m : Nat} {fs fs' : FS} {refs : List Ref}
    (h : OneFile Env.plain w n u fs) (hx : ∀ i, (x i).length + 8 = 4096) (hm : m < 8)
    (hrefs : refs.length = m)
    (hadds : Adds Env.plain fs fs' ((List.range m).map (record x) ++ [encodeRefs refs])) :
    InPlay Env.plain (fs'.dev.trace ++ [.hash (record zeros 0)]) := by
  have hbytes : (encodeRefs refs).length = 4 + m * 53 := by
    rw [length_encodeRefs, hrefs]
    rfl
  have hcases : ∀ b, .hash b ∈ fs'.dev.trace ++ [.hash (record zeros 0)] →
      (.hash b ∈ fs.dev.trace ∧ IsPage b) ∨ (∃ i < m, b = record x i ∧ b.length = 4096) ∨
      (b = encodeRefs refs ∧ b.length < 4096) ∨ b = record zeros 0 ∧ b.length = 32768 := by
    intro b hb
    rcases List.mem_append.mp hb with hb | hb
    · rcases hadds.hashed b hb with hb | hb
      · exact .inl ⟨hb, h.hashed b hb⟩
      · rcases List.mem_append.mp hb with hb | hb
        · obtain ⟨i, hi, rfl⟩ := List.mem_map.mp hb
          exact .inr (.inl ⟨i, List.mem_range.mp hi, rfl, length_record hx i⟩)
        · rw [List.mem_singleton.mp hb]
          exact .inr (.inr (.inl ⟨rfl, by omega⟩))
    · cases List.mem_singleton.mp hb
      exact .inr (.inr (.inr ⟨rfl, length_record length_zeros 0⟩))
  have hshort : ∀ b, .hash b ∈ fs'.dev.trace ++ [.hash (record zeros 0)] → b.length < 2 ^ 32 := by
    intro b hb
    rcases hcases b hb with ⟨-, hb, -⟩ | ⟨i, -, -, hb⟩ | ⟨-, hb⟩ | ⟨-, hb⟩ <;> omega
  refine ⟨fun b b' hb hb' heq => ?_, hshort⟩
  have hb64 := hshort b hb
  have hb64' := hshort b' hb'
  have hlen := (plain_apart (by omega) (by omega) heq).1
  -- all but the pages and the short records differ in length
  rcases hcases b hb with ⟨hb, hpage⟩ | ⟨i, hi, rfl, hle⟩ | ⟨rfl, hle⟩ | ⟨rfl, hle⟩ <;>
    rcases hcases b' hb' with ⟨hb', hpage'⟩ | ⟨j, hj, rfl, hle'⟩ | ⟨rfl, hle'⟩ | ⟨rfl, hle'⟩
  · exact h.play.inj b b' hb hb' heq
  · exact absurd heq.symm (not_isPage hx ground_plain (by decide) (by omega) hpage)
  · have := hpage.1
    omega
  · have := hpage.1
    omega
  · exact absurd heq (not_isPage hx ground_plain (by decide) (by omega) hpage')
  · rw [record_inj hx ground_plain (by decide) (by omega) (by omega) heq]
  · omega
  · omega
  · have := hpage'.1
    omega
  · omega
  · rfl
  · omega
  · have := hpage'.1
    omega
  · omega
  · omega
  · rfl

theorem exists_full : ∃ born s,
    Life Env.plain Cow.MetaSound (Prompt Env.plain) DirsLinked born s ∧ Full s := by
  have hscript : ∃ x ∈ script Env.plain Tended [.create 0 "a", .openFile 1] (fresh Env.plain) [],
      Opening x.1 x.2 ∧ Tended x.1.view (.writeFile 1 []) ∧ Sketched x.1.paid ∧
        x.1.paid.length = 1 := by
    decide +kernel
  obtain ⟨⟨t, handles⟩, hx, hopening, htended, hsketch, hfew⟩ := hscript
  dsimp only at hopening htended hsketch hfew
  have hslot : Cow.slotBlocks 404 defaultInodeCount defaultDdtReserve = 193 := by decide
  have hrest : script Env.plain Tended [] t handles = some (t, handles) := rfl
  obtain ⟨past, s, run, h, hhandles, -, htrack, horder⟩ := oneFile_of_opening
    (P := fun s op out => Smooth s op out ∧ Prompt Env.plain s op out) ground_plain
    (fun _ _ h => h.1) (fun v => ⟨trivial, fun _ hid => by cases hid⟩) (fun _ _ _ h => h.1)
    (by decide) (fun _ s t op r _ hop hrep ho hC => ⟨⟨hop.inSession, r, rfl⟩,
      prompt_of_tended Env.plain_lawful s t op r hop hrep ho hC⟩) (by decide) hslot
    (by simp [Plays, Answers]) hx hopening hrest (by decide) hsketch (by omega) (by decide)
    (by rw [hfew])
  have hsmall : ∀ i, ((fun _ => List.replicate 4088 0 : Nat → Bytes) i).length + 8 = 4096 :=
    fun _ => by rw [List.length_replicate]
  generalize (fun _ => List.replicate 4088 0 : Nat → Bytes) = x at hsmall
  have hwrites := h.writeFile_short ground_plain hsmall (m := 7) (by decide) (by decide) (by decide)
  cases hr : (writeFile 1 (contents x 7) : Act Env.plain Unit).1 s.fs with
  | error f fs => exact (hwrites.error hr).elim
  | ok a fs =>
    obtain ⟨hfill, hub, hfree, hreg, refs, hrefs, hadds⟩ := hwrites.ok hr
    have hexec : execOf Env.plain s.handles (.writeFile 1 (contents x 7)) s.fs = .ok .unit fs :=
      bind_of_ok hr
    have hdoes : perform Env.plain (.writeFile 1 (contents x 7)) s =
        (.ok .unit, ⟨fs, s.handles⟩) := by
      show call Env.plain _ s = _
      rw [call, hexec]
      rfl
    obtain ⟨born, life⟩ := Life.of_run (D := Cow.MetaSound) (P := Prompt Env.plain)
      (R := DirsLinked) (by rintro d rfl; exact ⟨fun _ => rfl, fun _ => rfl, fun _ => rfl⟩)
      (fun _ _ _ hp => ⟨hp.1.1, hp.2⟩) run
    have hprompt := prompt_of_tended Env.plain_lawful s t (.writeFile 1 (contents x 7)) .unit
      (.inl trivial) htrack.rep (hhandles ▸ horder) ⟨trivial, htended.2⟩
    refine ⟨_, ⟨fs, s.handles⟩, life.call hdoes trivial hprompt, hfill, hreg, ?_, ?_,
      h.short_apart hsmall (by decide) hrefs hadds⟩
    · have hused : s.fs.InUse 1 := htrack.rep.inUse.mpr (htended.2 1 List.mem_cons_self)
      unfold FS.InUse at hused ⊢
      rw [hub, hfree]
      exact hused
    · by_contra hknown
      rcases (hadds.known _).mp hknown with hold | ⟨b, hb, heq⟩
      · exact hold (h.lookup_record ground_plain length_zeros (by decide) (by decide))
      · have hlen : b.length < 32768 := by
          rcases List.mem_append.mp hb with hb | hb
          · obtain ⟨i, -, rfl⟩ := List.mem_map.mp hb
            rw [length_record hsmall]
            decide
          · rw [List.mem_singleton.mp hb, length_encodeRefs, hrefs]
            decide
        have := (plain_apart (by omega) (by rw [length_record length_zeros]; decide) heq).1
        rw [length_record length_zeros] at this
        omega

/-- On the full device the first record of a long file is refused. -/
theorem failed_writes_leak_nothing_full : ∃ born s s',
    Life Env.plain Cow.MetaSound (Prompt Env.plain) DirsLinked born s ∧
      perform Env.plain (.writeFile 1 (counting 64)) s =
        (.error (.err (.store (.alloc .noSpace))), s') ∧
      s'.fs.ddt = s.fs.ddt ∧ s'.fs.inodes = s.fs.inodes ∧
      ∀ id, s'.fs.readFile Env.plain id = s.fs.readFile Env.plain id := by
  obtain ⟨born, s, life, h⟩ := exists_full
  obtain ⟨c, hc, hneed⟩ := bulky_zeros.need 0
  have hstore := h.filling.bsWrite Env.plain_lawful hc h.new
  have hchunk : firstChunk (counting 64) = some (record zeros 0) := by
    unfold firstChunk counting
    rw [if_neg (by rw [length_contents length_zeros]; decide),
      chunk_contents length_zeros (by decide) (recordSizeFor_long (by decide))]
    rfl
  cases hr : (bsWrite (record zeros 0) : Act Env.plain Ref).1 s.fs with
  | ok r fs =>
    have hle := (hstore.ok hr).2.1.le
    rw [hneed] at hle
    omega
  | error f fs =>
    obtain ⟨rfl, -, hdev⟩ := hstore.error hr
    have hstarts : Starts (writeFile 1 (counting 64) : Act Env.plain Unit) s.fs (record zeros 0) :=
      .after (a := s.fs) rfl (.after (a := s.fs.inodes.slots 1) (by rw [h.regular]; rfl)
        (starts_setData hchunk))
    have does : perform Env.plain (.writeFile 1 (counting 64)) s =
        (.error (.err (.store (.alloc .noSpace))), ⟨fs, s.handles⟩) := by
      have hexec : execOf Env.plain s.handles (.writeFile 1 (counting 64)) s.fs =
          .error (.err (.store (.alloc .noSpace))) fs := bind_of_error (hstarts.refused hr)
      show call Env.plain _ s = _
      rw [call, hexec]
      rfl
    have hprompt : Prompt Env.plain s (.writeFile 1 (counting 64))
        (.error (.err (.store (.alloc .noSpace)))) := by
      refine ⟨.inr ⟨_, rfl⟩, fun _ _ _ => ⟨_, ?_, _, _, hr⟩, fun id hid => ?_, trivial⟩
      · show (s.fs.regular 1).toOption.bind (fun _ => firstChunk (counting 64)) = _
        rw [hchunk, h.regular]
        rfl
      · rw [List.mem_singleton.mp hid]
        exact h.inUse
    have hplay : InPlay Env.plain fs.dev.trace := by
      refine ⟨fun b b' hb hb' => h.play.inj b b' ?_ ?_, fun b hb => h.play.short b ?_⟩
      all_goals
        rw [hdev.trace] at *
        simp_all
    have hwriting : Writing (.writeFile 1 (counting 64)) := trivial
    exact ⟨born, s, _, life, does, failed_writes_leak_nothing Env.plain_lawful life hwriting does
      hprompt hplay⟩

/-! ## A write that fails later -/

/-- The first record is stored, and one of the next ones is refused. -/
theorem OneFile.writeFile_refused (g : Ground env) {x : Nat → Bytes} (hx : Bulky env x)
    {w n u : Nat} {fs : FS} (h : OneFile env w n u fs) {m : Nat} (h64 : 64 ≤ m) (hm : m ≤ 2 ^ 32)
    (hroom : u + 8 ≤ n) (hfull : n < 3 + 2 * w + m * 8) :
    Sat (Fs.writeFile 1 (contents x m) : Act env Unit).1 fs (fun _ _ => False)
      (fun f fs' => f = .err (.store (.alloc .noSpace)) ∧
        fs'.Knows (env.blake3 (record x 0))) := by
  have hlen := length_contents hx.length m
  have hchunk := chunk_contents hx.length (m := m) (by omega) (recordSizeFor_long h64)
  have hfails := h.mapM g hx hm fun i _ => stores_bsWrite (record x i)
  have hfirst : Sat (bsWrite (record x 0) : Act env Ref).1 fs
      (fun _ fs' => fs'.Knows (env.blake3 (record x 0))) (fun _ _ => False) := by
    have hvacant : Vacant fs (8 + 0) (0 + 1) := h.vacant hroom (by omega)
    obtain ⟨c, hc, hneed⟩ := hx.need 0
    refine (hvacant.bsWrite g.lawful hc hneed.le).mono (fun _ _ hq => ?_) fun _ _ he => he
    exact ((Adds.of_wrote hq.2.2).known _).mpr (.inr ⟨_, List.mem_cons_self, rfl⟩)
  have hkept : Sat (((List.range m).map (record x)).mapM (bsWrite : Bytes → Act env Ref)).1 fs
      (fun _ _ => True) (fun _ fs' => fs'.Knows (env.blake3 (record x 0))) := by
    obtain ⟨k, rfl⟩ : ∃ k, m = k + 1 := ⟨m - 1, by omega⟩
    rw [List.range_succ_eq_map, List.map_cons, List.mapM_cons]
    refine sat_bind hfirst (fun _ fs₁ h₁ => ?_) fun _ _ he => he.elim
    exact sat_bind (writeAll_knows _ h₁) (fun _ _ _ => sat_pure trivial) fun _ _ he => he
  refine sat_get_bind (sat_bind (sat_ofExcept (Q := fun in_ fs' => in_ = fs.inodes.slots 1 ∧
    fs = fs') (fun in_ hin => ?_) fun f hf => ?_) ?_ fun _ _ he => he)
  · cases h.regular.symm.trans hin
    exact ⟨rfl, rfl⟩
  · cases h.regular.symm.trans hf
  rintro _ _ ⟨rfl, rfl⟩
  refine Within.sat_ite (fun hbig => ?_) fun _ => ?_
  · rw [hlen] at hbig
    omega
  rw [List.mapM_map] at hkept
  rw [hchunk, List.mapM_map]
  refine sat_bind (Q := fun _ _ => False) ((hfails.and hkept).mono ?_ fun _ _ he => he)
    (fun _ _ hf => hf.elim) fun _ _ he => he
  rintro refs fs₁ ⟨hfill, -⟩
  have hle := hfill.le
  omega

/-- Whatever the codec, there are contents of 1024 records that a device of 8192 blocks has no
room for.  The write of them fails and leaves the first one in the table of blocks. -/
theorem failed_write_leaks : ∃ blocks records, ∀ z : Codec, ∃ x past s s' k,
    (∀ i, (x i).length = 32760) ∧ Run (Env.coded z) Disk.Reliable inSession past s ∧
      s.fs.dev.blocks = blocks ∧
      perform (Env.coded z) (.writeFile 1 (contents x records)) s =
      (.error (.err (.store (.alloc .noSpace))), s') ∧
      s.fs.ddt.lookup k = none ∧ s'.fs.ddt.lookup k ≠ none := by
  refine ⟨8192, 1024, fun z => ?_⟩
  obtain ⟨x, hx⟩ := exists_bulky z
  have hslot : Cow.slotBlocks 8192 defaultInodeCount defaultDdtReserve = 193 := by decide
  have g := ground_coded z
  obtain ⟨past, s, run, h, -⟩ := oneFile g (by decide) hslot (by decide)
  have hwrite := h.writeFile_refused g hx (m := 1024) (by decide) (by decide) (by decide)
    (by decide)
  cases hr : (writeFile 1 (contents x 1024) : Act (Env.coded z) Unit).1 s.fs with
  | ok a fs => exact (hwrite.ok hr).elim
  | error f fs =>
    obtain ⟨rfl, hknows⟩ := hwrite.error hr
    have hexec : execOf (Env.coded z) s.handles (.writeFile 1 (contents x 1024)) s.fs =
        .error (.err (.store (.alloc .noSpace))) fs := bind_of_error hr
    refine ⟨x, past, s, ⟨fs, s.handles⟩, _, fun i => by have := hx.length i; omega,
      run.mono (fun _ hd => hd) fun _ _ _ hp => hp.1.1, h.filling.blocks, ?_,
      h.lookup_record g hx.length (by decide) (by decide), hknows⟩
    show call (Env.coded z) _ s = _
    rw [call, hexec]
    rfl

end Runs
end BloomFS
