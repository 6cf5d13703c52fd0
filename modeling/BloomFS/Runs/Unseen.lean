/-
What the caller of a session does not see.

As long as the store stops no call, the resident directories, the commits, the device and
its key leave no trace in the answers.  Two sessions on two devices that read the same clock
and were asked the same questions have given the same answers, whatever calls of the cache,
of the commit or of the capacity reports each of them made in between.  A device that is too
small does show: the store then stops a call.
-/
import BloomFS.Refine.Plain

namespace BloomFS
namespace Spec

open Fs

variable (env : Env)

/-- The machine answers one call. -/
def answer (x : State × List Handle) (op : Op) : Outcome × State × List Handle :=
  match (planOf env x.2 op).1 x.1 with
  | .ok r t => (.ok r, t, handlesAfter op true x.2)
  | .error f t => (.error f, t, handlesAfter op false x.2)

/-- The machine answers one call after the other. -/
def answers : State × List Handle → List Op → List Outcome × State × List Handle
  | x, [] => ([], x)
  | x, op :: ops => ((answer env x op).1 :: (answers (answer env x op).2 ops).1,
      (answers (answer env x op).2 ops).2)

variable {env}

theorem answers_snoc (x : State × List Handle) (ops : List Op) (op : Op) :
    answers env x (ops ++ [op]) =
      ((answers env x ops).1 ++ [(answer env (answers env x ops).2 op).1],
        (answer env (answers env x ops).2 op).2) := by
  induction ops generalizing x with
  | nil => rfl
  | cons op' ops ih =>
    rw [List.cons_append, answers, ih]
    rfl

end Spec

namespace Runs

open Bytes Exec Block Dir Fs Store Spec Refine

variable {env : Env} {D D₁ D₂ : Disk → Prop} {P : Session → Op → Outcome → Prop}

/-- A session with the calls that were made in it and what they answered. -/
inductive Transcript (env : Env) (D : Disk → Prop) (P : Session → Op → Outcome → Prop) :
    List (Op × Outcome) → Session → Prop
  | start {key : Option Bytes} {d : Disk} {fs : FS} (blank : Blank d) (hd : D d)
      (run : format env key d = .ok fs) : Transcript env D P [] ⟨fs, []⟩
  | step {calls : List (Op × Outcome)} {s s' : Session} {op : Op} {out : Outcome}
      (h : Transcript env D P calls s) (does : perform env op s = (out, s')) (hp : P s op out) :
      Transcript env D P (calls ++ [(op, out)]) s'

/-- The call is not about the cache, the commit or the capacity. -/
def isQuestion : Op → Bool
  | .setDirCache _ => false
  | .commit => false
  | .statfs => false
  | .fallocate _ _ => false
  | .remount _ => false
  | _ => true

/-- The calls of a transcript that the machine knows of. -/
def questions (calls : List (Op × Outcome)) : List (Op × Outcome) :=
  calls.filter fun c => isQuestion c.1

/-- A call of a session that returns, is not stopped by the store, links and opens only
ids that are handed out, and does not rename over the directory it takes from. -/
structure Ordinary (env : Env) (s : Session) (op : Op) (out : Outcome) : Prop where
  session : op.InSession
  returns : Returns out
  stored : ∀ e, out = .error (.err e) → ¬ e.Storage
  current : op.Current s.fs
  aside : op.Aside env s.fs

theorem ordinary_calls : Calls env (Ordinary env) (InPlay env) :=
  calls_stored fun _ _ _ h => ⟨h.session, h.returns, h.stored⟩

theorem questions_snoc (calls : List (Op × Outcome)) (op : Op) (out : Outcome) :
    questions (calls ++ [(op, out)]) = questions calls ++ if isQuestion op then [(op, out)]
    else [] := by
  unfold questions
  rw [List.filter_append, List.filter_singleton]
  cases isQuestion op <;> rfl

theorem map_fst_questions (calls : List (Op × Outcome)) :
    (questions calls).map Prod.fst = (calls.map Prod.fst).filter isQuestion := by
  rw [List.filter_map]
  rfl

/-- What the machine does for a call is what it answers. -/
theorem answer_of_ran {t t' : State} {handles : List Handle} {op : Op} {out : Outcome}
    (hop : Answers op) (h : Ran env handles t op out t') :
    answer env (t, handles) op = (out, t', handlesAfter op (succeeded out) handles) := by
  unfold answer
  cases h with
  | answered _ hrun => rw [hrun]; rfl
  | failed _ hrun => rw [hrun]; rfl
  | beside hno => exact absurd hop hno

theorem answers_of_isQuestion {op : Op} (h : isQuestion op = true) : Answers op := by
  cases op with
  | setDirCache | commit | statfs | fallocate | remount => cases h
  | _ => exact trivial

/-- The calls that nobody asked about leave the machine where it is. -/
theorem ran_of_not_isQuestion {t t' : State} {handles : List Handle} {op : Op} {out : Outcome}
    (h : isQuestion op = false) (hran : Ran env handles t op out t') :
    t' = t ∧ handlesAfter op (succeeded out) handles = handles := by
  have hkeep : handlesAfter op (succeeded out) handles = handles := by
    cases op with
    | openFile | close => cases h
    | _ => rfl
  refine ⟨?_, hkeep⟩
  cases hran with
  | beside => rfl
  | answered hop hrun =>
    cases op with
    | setDirCache =>
      cases hrun
      rfl
    | commit | statfs | fallocate | remount => exact hop.elim
    | _ => cases h
  | failed hop hrun =>
    cases op with
    | setDirCache => cases hrun
    | commit | statfs | fallocate | remount => exact hop.elim
    | _ => cases h

/-- The machine follows a session, and gives its answers. -/
theorem Transcript.answers (hl : env.Lawful) {calls : List (Op × Outcome)} {s : Session}
    (h : Transcript env D (Ordinary env) calls s) (hplay : InPlay env s.fs.dev.trace) :
    ∃ t, Rep env s.fs t ∧ Orderly t.view s.handles ∧
      Spec.answers env (fresh env, []) ((questions calls).map Prod.fst) =
        ((questions calls).map Prod.snd, t, s.handles) := by
  induction h with
  | start blank _ run =>
    exact ⟨fresh env, rep_of_formatted (formatted_of_ok blank run), orderly_fresh env, rfl⟩
  | @step calls s s' op out _ does hp ih =>
    obtain ⟨t, hrep, ho, hans⟩ := ih (ordinary_calls.of_prefix _ _
      (trace_grows hp.session does) hplay)
    have hfair : Fair t.view op := (hrep.fair hl ho.ready.neat).mpr ⟨hp.current, hp.aside⟩
    obtain ⟨t', hran, hrep', hwhat⟩ :=
      perform_change hl hrep ho.ready hp.session (apart_of_fair hfair) hplay
      (ordinary_calls.returns s op out _ hp hplay) does
    have hhandles : s'.handles = handlesAfter op (succeeded out) s.handles :=
      (perform_rep hl hrep ho.ready hp.session (apart_of_fair hfair) hplay does).1
    have ho' : Orderly t'.view s'.handles := by
      rcases hwhat with ⟨r, -, hchange, hh⟩ | ⟨hview, hh, -⟩
      · rw [hh]
        exact ho.step hfair hchange
      · rw [hview, hh]
        exact ho
    refine ⟨t', hrep', ho', ?_⟩
    rw [questions_snoc]
    cases hquestion : isQuestion op with
    | true =>
      rw [if_pos rfl, List.map_append, List.map_append, List.map_singleton,
        List.map_singleton, answers_snoc,
        hans, answer_of_ran (answers_of_isQuestion hquestion) hran, hhandles]
    | false =>
      obtain ⟨rfl, hsame⟩ := ran_of_not_isQuestion hquestion hran
      rw [if_neg (by simp), List.append_nil, hans, hhandles, hsame]

/-- Two sessions of ordinary calls that were asked the same have answered the same.  The clock
is the one of the environment: its readings are the same in both. -/
theorem answers_depend_on_questions (hl : env.Lawful) {calls₁ calls₂ : List (Op × Outcome)}
    {s₁ s₂ : Session} (h₁ : Transcript env D₁ (Ordinary env) calls₁ s₁)
    (h₂ : Transcript env D₂ (Ordinary env) calls₂ s₂) (hplay₁ : InPlay env s₁.fs.dev.trace)
    (hplay₂ : InPlay env s₂.fs.dev.trace)
    (hsame : (questions calls₁).map Prod.fst = (questions calls₂).map Prod.fst) :
    questions calls₁ = questions calls₂ := by
  obtain ⟨t₁, -, -, hans₁⟩ := h₁.answers hl hplay₁
  obtain ⟨t₂, -, -, hans₂⟩ := h₂.answers hl hplay₂
  rw [hsame, hans₂] at hans₁
  have hreplies : (questions calls₁).map Prod.snd = (questions calls₂).map Prod.snd :=
    (congrArg Prod.fst hans₁).symm
  rw [← List.zip_unzip (questions calls₁), ← List.zip_unzip (questions calls₂), List.unzip_fst,
    List.unzip_fst, List.unzip_snd, List.unzip_snd, hsame, hreplies]

/-- A fair script is a session that is asked its operations. -/
theorem transcript_exact {l : List Charge} {k : Nat} {ops : List Op} {handles : List Handle}
    (hc : Clear env l)
    (hops : ∀ op ∈ ops, Plays op) {calls : List (Op × Outcome)} {s : Session} {t t' : State}
    (h : Transcript env D (Ordinary env) calls s) (htrack : Track env l (k + ops.length) s t)
    (ho : Orderly t.view s.handles) (hscript : script env Fair ops t s.handles = some (t', handles))
    (hpre : t'.log <+: l) :
    ∃ calls' s', Transcript env D (Ordinary env) (calls ++ calls') s' ∧ calls'.map Prod.fst = ops ∧
      Track env l k s' t' := by
  induction ops generalizing calls s t with
  | nil =>
    cases hscript
    refine ⟨[], s, ?_, rfl, htrack⟩
    rw [List.append_nil]
    exact h
  | cons op ops ih =>
    obtain ⟨hfair, r, t₁, hrun, hrest⟩ := script_cons hscript
    have hplays := hops op List.mem_cons_self
    have hops' : ∀ op ∈ ops, Plays op := fun op hop => hops op (List.mem_cons_of_mem _ hop)
    obtain ⟨hcur, haside⟩ := (htrack.rep.fair hc.lawful ho.ready.neat).mp hfair
    have hp : Ordinary env s op (.ok r) :=
      ⟨hplays.inSession, .inl ⟨r, rfl⟩, fun _ he => (by cases he), hcur, haside⟩
    -- one call, then the rest of the script
    have hstep : ∃ s₁, perform env op s = (.ok r, s₁) ∧
      s₁.handles = handlesAfter op true s.handles ∧
        Track env l (k + ops.length) s₁ t₁ ∧ Orderly t₁.view s₁.handles := by
      rcases hplays with hans | rfl
      · obtain ⟨s₁, hdoes, hh, htrack₁⟩ := htrack.act hc ho.ready hans (apart_of_fair hfair) hrun
          ((script_grows hrest).trans hpre)
        refine ⟨s₁, hdoes, hh, htrack₁.mono (Nat.le_succ _), ?_⟩
        rw [hh]
        exact ho.step hfair ((planOf_change hc.lawful ho.ready hans).ok hrun)
      · cases hrun
        obtain ⟨s₁, hdoes, hh, htrack₁⟩ := htrack.committed
        refine ⟨s₁, hdoes, hh, htrack₁, ?_⟩
        rw [hh]
        exact ho
    obtain ⟨s₁, hdoes, hh, htrack₁, ho₁⟩ := hstep
    rw [← hh] at hrest
    obtain ⟨calls', s', h', hops₁, htrack'⟩ := ih hops' (h.step hdoes hp) htrack₁ ho₁ hrest
    refine ⟨(op, .ok r) :: calls', s', ?_, congrArg (op :: ·) hops₁, htrack'⟩
    rw [List.append_assoc] at h'
    exact h'

/-- A session with its cache on, and one with the cache off and a commit in between. -/
theorem answers_depend_on_questions_uncached : ∃ calls₁ calls₂ s₁ s₂,
    Transcript Env.plain Disk.Reliable (Ordinary Env.plain) calls₁ s₁ ∧
      Transcript Env.plain Disk.Reliable (Ordinary Env.plain) calls₂ s₂ ∧ calls₁.length = 3 ∧
      calls₂.length = 5 ∧ questions calls₁ = questions calls₂ := by
  have hscript : ∃ x ∈ script Env.plain Fair [.create 0 "a", .writeFile 1 [7], .lookup 0 "a"]
    (fresh Env.plain) [],
      ∃ y ∈ script Env.plain Fair [.setDirCache false, .create 0 "a", .commit, .writeFile 1 [7],
        .lookup 0 "a"] (fresh Env.plain) [],
      Sketched x.1.paid ∧ x.1.paid.length ≤ 256 ∧ Sketched y.1.paid ∧ y.1.paid.length ≤ 256 := by
    decide
  obtain ⟨⟨t₁, handles₁⟩, hx, ⟨t₂, handles₂⟩, hy, hsk₁, hfew₁, hsk₂, hfew₂⟩ := hscript
  obtain ⟨hclear₁, hblank, fs₁, hfs₁, htrack₁⟩ := start_format hsk₁ hfew₁
  obtain ⟨hclear₂, -, fs₂, hfs₂, htrack₂⟩ := start_format hsk₂ hfew₂
  obtain ⟨calls₁, s₁, h₁, hops₁, hend₁⟩ := transcript_exact (D := Disk.Reliable) (k := 0) hclear₁
    (by simp [Plays, Answers]) (.start hblank (reliable_zeroed _ _) hfs₁) (htrack₁.mono (by decide))
    (orderly_fresh _) hx (List.prefix_refl _)
  obtain ⟨calls₂, s₂, h₂, hops₂, hend₂⟩ := transcript_exact (D := Disk.Reliable) (k := 0) hclear₂
    (by simp [Plays, Answers]) (.start hblank (reliable_zeroed _ _) hfs₂) (htrack₂.mono (by decide))
    (orderly_fresh _) hy (List.prefix_refl _)
  have hsame : (questions calls₁).map Prod.fst = (questions calls₂).map Prod.fst := by
    rw [map_fst_questions, map_fst_questions, hops₁, hops₂]
    rfl
  have hlen₁ := congrArg List.length hops₁
  have hlen₂ := congrArg List.length hops₂
  rw [List.length_map] at hlen₁ hlen₂
  exact ⟨calls₁, calls₂, s₁, s₂, h₁, h₂, hlen₁, hlen₂,
    answers_depend_on_questions Env.plain_lawful h₁ h₂
    (hend₁.undisturbed hclear₁).1 (hend₂.undisturbed hclear₂).1 hsame⟩

end Runs
end BloomFS
