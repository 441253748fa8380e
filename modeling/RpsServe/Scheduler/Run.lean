import RpsServe.Scheduler.Operations
import RpsServe.Scheduler.Round
import RpsServe.KVCache.FullAttention
import RpsServe.EncoderCacheManager

/-!
# Runs

The system is the scheduler together with the outputs of its steps that the workers have
not answered yet. Its operations may come in any order, and an answer may be for any output
in flight. A run ends where an operation raises.
-/

namespace RpsServe

/-- The scheduler with its outputs in flight, and all outputs so far. -/
structure System (K E : Type) where
  sch : Scheduler K E
  inFlight : List SchedulerOutput := []
  outputs : List SchedulerOutput := []

/-- The operations of the engine, with what each of them reads from outside. -/
inductive Op where
  | addRequest (request : Request) (delayFree : ReqId → Bool)
  | schedule (env : StepEnv)
  | updateFromOutput (i : ℕ) (mro : ModelRunnerOutput)
  | finishRequests (requestIds : Option (List ReqId)) (finishedStatus : RequestStatus)
      (delayFree : ReqId → Bool)
  | setPauseState (pauseState : PauseState)
  | resetPrefixCache (resetRunningRequests : Bool)
  | updateDraftTokenIds (validateTokens : ReqId → List Token → List Token)
      (drafts : List (ReqId × List Token))

/-- Whether the operation is a step. -/
def Op.isSchedule : Op → Bool
  | .schedule _ => true
  | .addRequest _ _ | .updateFromOutput _ _ | .finishRequests _ _ _ | .setPauseState _
  | .resetPrefixCache _ | .updateDraftTokenIds _ _ => false

/-- What the KV connector says in the operation of the requests that it ends: whether it keeps their
blocks. -/
def Op.delayFree : Op → ReqId → Bool
  | .addRequest _ delayFree | .finishRequests _ _ delayFree => delayFree
  | .updateFromOutput _ mro => mro.delayFree
  | .schedule _ | .setPauseState _ | .resetPrefixCache _ | .updateDraftTokenIds _ _ => fun _ => false

namespace System

variable {K E : Type} [KVCacheManager K] [EncoderCache E]

/-- The system before its first request. -/
def init (cfg : Config) (kv : K) (enc : E) : System K E where
  sch := Scheduler.init cfg kv enc

/-- The system after an operation that returns. -/
def step (cfg : Config) (sys : System K E) : Op → Except SchedError (System K E)
  | .addRequest request delayFree => do
    let sch ← sys.sch.addRequest cfg delayFree request
    .ok { sys with sch := sch }
  | .schedule env => do
    let (out, sch) ← sys.sch.schedule cfg env
    .ok { sch := sch, inFlight := sys.inFlight ++ [out], outputs := sys.outputs ++ [out] }
  | .updateFromOutput i mro =>
    match sys.inFlight[i]? with
    | none => .error .indexError
    | some out => do
      let sch ← sys.sch.updateFromOutput cfg out mro
      .ok { sys with sch := sch, inFlight := sys.inFlight.eraseIdx i }
  | .finishRequests requestIds finishedStatus delayFree => do
    let sch ← sys.sch.finishRequests cfg delayFree requestIds finishedStatus
    .ok { sys with sch := sch }
  | .setPauseState pauseState => .ok { sys with sch := sys.sch.setPauseState pauseState }
  | .resetPrefixCache resetRunningRequests => do
    let (_, sch) ← sys.sch.resetPrefixCache resetRunningRequests
    .ok { sys with sch := sch }
  | .updateDraftTokenIds validateTokens drafts =>
    .ok { sys with sch := sys.sch.updateDraftTokenIds validateTokens drafts }

/-- What the engine promises of an operation: a request that is not the next chunk of a live
session comes under an id that was never used. -/
def Admissible (sys : System K E) : Op → Prop
  | .addRequest request _ =>
    request.requestId ∈ sys.sch.requests ∨ request.requestId ∉ sys.sch.objs.keys
  | _ => True

/-- The systems reached from `start` by runs in which every operation meets `ok` in the state it is
called in. -/
inductive Run (cfg : Config) (ok : System K E → Op → Prop) (start : System K E) :
    System K E → Prop
  | start : Run cfg ok start start
  | step {sys sys' : System K E} {op : Op} : Run cfg ok start sys → sys.Admissible op →
      ok sys op → sys.step cfg op = .ok sys' → Run cfg ok start sys'

variable {cfg : Config} {ok : System K E → Op → Prop} {start sys : System K E}

/-- What holds at the start and is kept by every operation holds of every reached system. -/
theorem Run.invariant {I : System K E → Prop} (h : Run cfg ok start sys) (hstart : I start)
    (hstep : ∀ sys op sys', I sys → sys.Admissible op → ok sys op → sys.step cfg op = .ok sys' →
      I sys') : I sys := by
  induction h with
  | start => exact hstart
  | step _ hadm hok hs ih => exact hstep _ _ _ ih hadm hok hs

/-- A run that meets a condition meets every weaker one. -/
theorem Run.mono {ok' : System K E → Op → Prop} (h : Run cfg ok start sys)
    (hok : ∀ sys op, ok sys op → ok' sys op) : Run cfg ok' start sys := by
  induction h with
  | start => exact .start
  | step _ hadm hop hs ih => exact .step ih hadm (hok _ _ hop) hs

/-- Runs can be put one after the other. -/
theorem Run.trans {mid : System K E} (h : Run cfg ok start mid) (h' : Run cfg ok mid sys) :
    Run cfg ok start sys := by
  induction h' with
  | start => exact h
  | step _ hadm hok hs ih => exact .step ih hadm hok hs

/-! ### Running a list of operations -/

instance (sys : System K E) (op : Op) : Decidable (sys.Admissible op) :=
  match op with
  | .addRequest _ _ => inferInstanceAs (Decidable (_ ∨ _))
  | .schedule _ | .updateFromOutput _ _ | .finishRequests _ _ _ | .setPauseState _
  | .resetPrefixCache _ | .updateDraftTokenIds _ _ => .isTrue trivial

/-- The system after the listed operations. -/
def exec (cfg : Config) (sys : System K E) (ops : List Op) : Except SchedError (System K E) :=
  ops.foldlM (step cfg) sys

/-- Every listed operation is admissible and meets `ok` in the state it is called in. -/
def Legal (cfg : Config) (ok : System K E → Op → Prop) : System K E → List Op → Prop
  | _, [] => True
  | sys, op :: rest => sys.Admissible op ∧ ok sys op ∧
    match sys.step cfg op with
    | .ok sys' => Legal cfg ok sys' rest
    | .error _ => True

instance Legal.decidable (ok : System K E → Op → Prop) [∀ sys op, Decidable (ok sys op)]
    (sys : System K E) (ops : List Op) : Decidable (Legal cfg ok sys ops) :=
  match ops with
  | [] => .isTrue trivial
  | op :: rest =>
    haveI : Decidable (match sys.step cfg op with
        | .ok sys' => Legal cfg ok sys' rest
        | .error _ => True) :=
      match sys.step cfg op with
      | .ok sys' => Legal.decidable ok sys' rest
      | .error _ => .isTrue trivial
    inferInstanceAs (Decidable (_ ∧ _ ∧ _))

/-- What is legal under a stronger condition is legal under a weaker one. -/
theorem Legal.mono {ok' : System K E → Op → Prop} (hok : ∀ sys op, ok sys op → ok' sys op)
    {ops : List Op} (h : Legal cfg ok sys ops) : Legal cfg ok' sys ops := by
  induction ops generalizing sys with
  | nil => trivial
  | cons op rest ih =>
    obtain ⟨hadm, hop, hrest⟩ := h
    refine ⟨hadm, hok sys op hop, ?_⟩
    split at hrest
    · exact ih hrest
    · trivial

/-- Executing legal operations is a run. -/
theorem Run.of_exec {ops : List Op} (h : exec cfg start ops = .ok sys)
    (hlegal : Legal cfg ok start ops) : Run cfg ok start sys := by
  have hrun : ∀ mid, Run cfg ok start mid → exec cfg mid ops = .ok sys → Legal cfg ok mid ops →
      Run cfg ok start sys := by
    clear h hlegal
    induction ops with
    | nil =>
      intro mid hmid h _
      cases h
      exact hmid
    | cons op rest ih =>
      intro mid hmid h hlegal
      obtain ⟨mid', hstep, hrest⟩ := foldlM_cons_eq_ok.mp h
      obtain ⟨hadm, hok, hlegal⟩ := hlegal
      rw [hstep] at hlegal
      exact ih mid' (.step hmid hadm hok hstep) hrest hlegal
  exact hrun start .start h hlegal

/-- A property of the state that a list of legal operations leads to. -/
def Reaches (cfg : Config) (start : System K E) (ops : List Op) (P : System K E → Prop) : Prop :=
  match exec cfg start ops with
  | .ok sys => P sys
  | .error _ => False

instance (ops : List Op) (P : System K E → Prop) [DecidablePred P] :
    Decidable (Reaches cfg start ops P) := by
  unfold Reaches
  split <;> infer_instance

/-- Legal operations that reach a state are a run to it. -/
theorem Reaches.exists_run (ops : List Op) {P : System K E → Prop}
    (h : Reaches cfg start ops P) (hlegal : Legal cfg ok start ops) :
    ∃ sys, Run cfg ok start sys ∧ P sys := by
  unfold Reaches at h
  split at h
  · rename_i sys hexec
    exact ⟨sys, .of_exec hexec hlegal, h⟩
  · exact h.elim

/-- A property of what a step of the system yields. -/
def AfterStep (cfg : Config) (sys : System K E) (P : SchedulerOutput → Scheduler K E → Prop) :
    Prop :=
  match Scheduler.schedule cfg {} sys.sch with
  | .ok (out, s) => P out s
  | .error _ => False

instance (P : SchedulerOutput → Scheduler K E → Prop) [∀ out s, Decidable (P out s)] :
    Decidable (AfterStep cfg sys P) := by
  unfold AfterStep
  split <;> infer_instance

/-- A state after a step is one that schedule returns. -/
theorem AfterStep.exists_ok {P : SchedulerOutput → Scheduler K E → Prop}
    (h : AfterStep cfg sys P) :
    ∃ out s, Scheduler.schedule cfg {} sys.sch = .ok (out, s) ∧ P out s := by
  unfold AfterStep at h
  split at h
  · rename_i out s hok
    exact ⟨out, s, hok, h⟩
  · exact h.elim

/-- A property of the loop's variables at the beginning of a step's walk. -/
def AtStart (cfg : Config) (sys : System K E) (P : LoopState K E → Prop) : Prop :=
  match Scheduler.beginStep cfg {} sys.sch with
  | .ok ls => P ls
  | .error _ => False

instance (P : LoopState K E → Prop) [DecidablePred P] : Decidable (AtStart cfg sys P) := by
  unfold AtStart
  split <;> infer_instance

/-- The start of a walk is a state its rounds reach. -/
theorem AtStart.exists_rounds {P : LoopState K E → Prop} (h : AtStart cfg sys P) :
    ∃ ls, Scheduler.Rounds cfg {} sys.sch ls ∧ P ls := by
  unfold AtStart at h
  split at h
  · rename_i ls hbegin
    exact ⟨ls, ⟨ls, hbegin, .start⟩, h⟩
  · exact h.elim

/-- A property of the loop's variables at the beginning of a step's walk and after `n` rounds. -/
def AtRound (cfg : Config) (sys : System K E) (n : ℕ)
    (P : LoopState K E → LoopState K E → Prop) : Prop :=
  match Scheduler.beginStep cfg {} sys.sch with
  | .ok ls₀ =>
    match afterRounds (LoopState.round cfg {}) n ls₀ with
    | some ls => P ls₀ ls
    | none => False
  | .error _ => False

instance (n : ℕ) (P : LoopState K E → LoopState K E → Prop) [∀ ls₀ ls, Decidable (P ls₀ ls)] :
    Decidable (AtRound cfg sys n P) := by
  unfold AtRound
  split
  · split <;> infer_instance
  · infer_instance

/-- The head of a round is visited. -/
theorem AtRound.exists_visits {n : ℕ} {P : LoopState K E → LoopState K E → Prop}
    (h : AtRound cfg sys n P) : ∃ ls₀ ls, Scheduler.beginStep cfg {} sys.sch = .ok ls₀ ∧
      Visits (LoopState.round cfg {}) ls₀ ls ∧ P ls₀ ls := by
  unfold AtRound at h
  split at h
  · rename_i ls₀ hbegin
    split at h
    · rename_i ls hrounds
      exact ⟨ls₀, ls, hbegin, .of_afterRounds hrounds, h⟩
    · exact h.elim
  · exact h.elim

/-- A property of the loop's variables at the beginning of every round of a step. -/
def InEveryRound (cfg : Config) (sys : System K E) (P : LoopState K E → Prop) : Prop :=
  match Scheduler.beginStep cfg {} sys.sch with
  | .ok ls₀ => AllRounds (LoopState.round cfg {}) P (2 * ls₀.qm.combined.length + 1) ls₀
  | .error _ => False

instance (P : LoopState K E → Prop) [DecidablePred P] : Decidable (InEveryRound cfg sys P) := by
  unfold InEveryRound
  split <;> infer_instance

/-- What holds in every round holds of the states the rounds reach. -/
theorem InEveryRound.of_rounds {P : LoopState K E → Prop} {ls : LoopState K E}
    (h : InEveryRound cfg sys P) (hrounds : Scheduler.Rounds cfg {} sys.sch ls) : P ls := by
  obtain ⟨ls₀, hbegin, hvisits⟩ := hrounds
  rw [InEveryRound, hbegin] at h
  exact h.of_visits hvisits

/-- A property of the loop's variables at the end of a step's walk. -/
def AfterWalk (cfg : Config) (sys : System K E) (P : LoopState K E → Prop) : Prop :=
  match (do
    let ls ← Scheduler.beginStep cfg {} sys.sch
    let ls ← ls.mainLoop cfg {}
    ls.tailPreempt) with
  | .ok ls => P ls
  | .error _ => False

instance (P : LoopState K E → Prop) [DecidablePred P] : Decidable (AfterWalk cfg sys P) := by
  unfold AfterWalk
  split <;> infer_instance

/-- A state at the end of a walk is walked to. -/
theorem AfterWalk.exists_walked {P : LoopState K E → Prop} (h : AfterWalk cfg sys P) :
    ∃ ls, Scheduler.Walked cfg {} sys.sch ls ∧ P ls := by
  unfold AfterWalk at h
  split at h
  · rename_i ls hok
    obtain ⟨ls₀, hbegin, hok⟩ := bind_eq_ok.mp hok
    obtain ⟨ls₁, hloop, htail⟩ := bind_eq_ok.mp hok
    exact ⟨ls, ⟨ls₀, ls₁, hbegin, hloop, htail⟩, h⟩
  · exact h.elim

/-- The system with the caches of decoder-only models with full attention. -/
def decoderOnly (cfg : Config) (enableCaching : Bool) (encoderCacheSize : ℕ) :
    System FullAttentionKV EncoderCacheManager :=
  init cfg (FullAttentionKV.init cfg enableCaching) (EncoderCacheManager.init encoderCacheSize)

end System

end RpsServe
