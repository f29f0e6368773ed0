import Nvllm.Lib.Run
import Nvllm.Sched.Update

/-! # Runs of the engine

The engine calls the scheduler and executes its outputs, in order and maybe several at a time. What
the workers answer, when an answer arrives and which requests come in between is left open: a run
is any sequence of events. `step` of the engine is `schedule` followed by `updateFromOutput`;
`step_with_batch_queue` may have several steps in flight.
-/

namespace Nvllm.Sched

open Nvllm.KVCache Nvllm.Run

structure Engine where
  s : Scheduler
  /-- the outputs that are executing, oldest first -/
  inFlight : List SchedulerOutput
  /-- all outputs with the states that `schedule` left, latest first -/
  history : List (SchedulerOutput × Scheduler)

inductive Event
  | addRequest (q : Request.EngineCoreRequest) (a : Answers)
  | finishRequests (requestIds : Option (List RequestId)) (finishedStatus : RequestStatus)
      (a : Answers)
  | schedule (a : Answers)
  /-- the output of the oldest step in flight -/
  | updateFromOutput (m : ModelRunnerOutput) (a : Answers)
  | updateDraftTokenIds (drafts : List (RequestId × List ℤ))
  | resetPrefixCache (resetRunningRequests : Bool)
  | resetEncoderCache
  | setPauseState (pauseState : PauseState)

namespace Engine

def init (kv : KVCacheManager) (enc : EncoderCacheManager) : Engine where
  s := .init kv enc
  inFlight := []
  history := []

/-- A new engine whose KV cache has one group of full attention, with blocks of four tokens. -/
def startFull (numBlocks maxModelLen : ℕ) (enableCaching : Bool := false)
    (encoderCacheSize : ℕ := 0) : Option Engine :=
  (KVCacheManager.init {
    numBlocks
    specs := [⟨.full false, 4, 0, pos_four, trivial⟩]
    maxModelLen
    hashBlockSize := 4
    enableCaching
    useEagle := false }).map fun kv => init kv (.init false encoderCacheSize)

variable (cfg : SchedulerConfig) (hasher : Request → Option (List Bytes))

def step (e : Engine) : Event → Option Engine
  | .addRequest q a => do
    let s ← e.s.addRequest cfg hasher a q
    return { e with s }
  | .finishRequests requestIds finishedStatus a => do
    let s ← e.s.finishRequests cfg a requestIds finishedStatus
    return { e with s }
  | .schedule a => do
    let (out, s) ← e.s.schedule cfg a
    return { s, inFlight := e.inFlight ++ [out], history := (out, s) :: e.history }
  | .updateFromOutput m a =>
    match e.inFlight with
    | [] => none
    | out :: rest => do
      let s ← e.s.updateFromOutput cfg hasher a out m
      return { e with s, inFlight := rest }
  | .updateDraftTokenIds drafts => some { e with s := e.s.updateDraftTokenIds drafts }
  | .resetPrefixCache resetRunningRequests => do
    let s ← e.s.resetPrefixCache cfg resetRunningRequests
    return { e with s }
  | .resetEncoderCache => some { e with s := e.s.resetEncoderCache }
  | .setPauseState pauseState => some { e with s := { e.s with pauseState } }

/-- What an event does. -/
inductive Steps (e : Engine) : Event → Engine → Prop
  | addRequest (q : Request.EngineCoreRequest) (a : Answers) (s : Scheduler) :
      e.s.addRequest cfg hasher a q = some s → Steps e (.addRequest q a) { e with s }
  | finishRequests (requestIds : Option (List RequestId)) (finishedStatus : RequestStatus)
      (a : Answers) (s : Scheduler) : e.s.finishRequests cfg a requestIds finishedStatus = some s →
      Steps e (.finishRequests requestIds finishedStatus a) { e with s }
  | schedule (a : Answers) (out : SchedulerOutput) (s : Scheduler) :
      e.s.schedule cfg a = some (out, s) →
      Steps e (.schedule a)
        { s, inFlight := e.inFlight ++ [out], history := (out, s) :: e.history }
  | updateFromOutput (m : ModelRunnerOutput) (a : Answers) (out : SchedulerOutput)
      (rest : List SchedulerOutput) (s : Scheduler) : e.inFlight = out :: rest →
      e.s.updateFromOutput cfg hasher a out m = some s →
      Steps e (.updateFromOutput m a) { e with s, inFlight := rest }
  | updateDraftTokenIds (drafts : List (RequestId × List ℤ)) :
      Steps e (.updateDraftTokenIds drafts) { e with s := e.s.updateDraftTokenIds drafts }
  | resetPrefixCache (resetRunningRequests : Bool) (s : Scheduler) :
      e.s.resetPrefixCache cfg resetRunningRequests = some s →
      Steps e (.resetPrefixCache resetRunningRequests) { e with s }
  | resetEncoderCache : Steps e .resetEncoderCache { e with s := e.s.resetEncoderCache }
  | setPauseState (pauseState : PauseState) :
      Steps e (.setPauseState pauseState) { e with s := { e.s with pauseState } }

variable {cfg hasher}

theorem step_cases {e e' : Engine} {ev : Event} (h : e.step cfg hasher ev = some e') :
    Steps cfg hasher e ev e' := by
  cases ev with
  | addRequest q a =>
    obtain ⟨s, hs, h⟩ := Option.bind_eq_some_iff.mp h
    cases h
    exact .addRequest q a s hs
  | finishRequests ids status a =>
    obtain ⟨s, hs, h⟩ := Option.bind_eq_some_iff.mp h
    cases h
    exact .finishRequests ids status a s hs
  | schedule a =>
    obtain ⟨⟨out, s⟩, hs, h⟩ := Option.bind_eq_some_iff.mp h
    cases h
    exact .schedule a out s hs
  | updateFromOutput m a =>
    cases hf : e.inFlight with
    | nil =>
      simp only [step, hf] at h
      cases h
    | cons out rest =>
      simp only [step, hf] at h
      obtain ⟨s, hs, h⟩ := Option.bind_eq_some_iff.mp h
      cases h
      exact .updateFromOutput m a out rest s hf hs
  | updateDraftTokenIds drafts =>
    cases h
    exact .updateDraftTokenIds drafts
  | resetPrefixCache b =>
    obtain ⟨s, hs, h⟩ := Option.bind_eq_some_iff.mp h
    cases h
    exact .resetPrefixCache b s hs
  | resetEncoderCache =>
    cases h
    exact .resetEncoderCache
  | setPauseState p =>
    cases h
    exact .setPauseState p

end Engine

end Nvllm.Sched
