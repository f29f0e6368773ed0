import Mathlib.Data.List.Forall2
import Nvllm.Lib.Run

/-! # The deltas of a request

One request with `RequestOutputKind.DELTA`. `process_outputs` and `abort_requests` build its outputs
(`make_request_output`), the collector merges those that were not taken yet, and the consumer takes
them at any time. The detokenizer and the logprobs processor are the lists they keep; texts are left
out. A request with several completions has one such state for each of them.

The logprobs of an output are `logprobs[-len(token_ids):]`. Without tokens this is the whole list.
If the list is still empty it is not sliced, and the output holds the list of the processor itself.
-/

namespace Nvllm.Output

open Nvllm.Run List

variable {T L : Type}

/-- The logprobs of an output: none asked for, a list of its own, or the list of the processor. -/
inductive Logprobs (L : Type)
  | off
  | own (entries : List L)
  | live
  deriving DecidableEq

structure CompletionOutput (T L : Type) where
  tokenIds : List T
  logprobs : Logprobs L
  finished : Bool
  deriving DecidableEq

/-- An output as the consumer reads it. -/
structure Received (T L : Type) where
  tokenIds : List T
  logprobs : Option (List L)
  finished : Bool
  deriving DecidableEq

structure RequestState (T L : Type) where
  /-- `detokenizer.output_token_ids` -/
  tokenIds : List T := []
  /-- `logprobs_processor.logprobs` -/
  logprobs : Option (List L)
  sentTokensOffset : ℕ := 0
  /-- the request is in `request_states` -/
  registered : Bool := true
  /-- `RequestOutputCollector.output` -/
  output : Option (CompletionOutput T L) := none
  /-- what the consumer has taken -/
  received : List (Received T L) := []
  /-- what the engine has produced for the request, for the statements only -/
  produced : List (T × L) := []
  deriving DecidableEq

/-- The entries that an output shows, given the list of the processor. -/
def Logprobs.entries (processor : Option (List L)) : Logprobs L → Option (List L)
  | .off => none
  | .own l => some l
  | .live => processor

namespace RequestState

/-- `logprobs[-n:]`. -/
def lastEntries (l : List L) (n : ℕ) : List L := if n = 0 then l else l.drop (l.length - n)

/-- `_new_completion_output`. -/
def newCompletionOutput (s : RequestState T L) (tokenIds : List T) (finished : Bool) :
    CompletionOutput T L where
  tokenIds := tokenIds
  logprobs :=
    match s.logprobs with
    | none => .off
    | some [] => .live
    | some l => .own (lastEntries l tokenIds.length)
  finished := finished

/-- `RequestOutput.add` for one completion; a missing list to extend fails an assertion. -/
def add (s : RequestState T L) (o next : CompletionOutput T L) : Option (RequestState T L) :=
  let merged : CompletionOutput T L :=
    { o with tokenIds := o.tokenIds ++ next.tokenIds, finished := o.finished || next.finished }
  match (next.logprobs.entries s.logprobs).getD [], o.logprobs with
  | [], _ => some { s with output := some merged }
  | _, .off => none
  | more, .own l => some { s with output := some { merged with logprobs := .own (l ++ more) } }
  | more, .live =>
      some { s with output := some merged, logprobs := s.logprobs.map (· ++ more) }

/-- `RequestOutputCollector.put`. -/
def put (s : RequestState T L) (next : CompletionOutput T L) : Option (RequestState T L) :=
  match s.output with
  | none => some { s with output := some next }
  | some o => s.add o next

/-- `make_request_output` and the put of what it returns. -/
def makeRequestOutput (streamInterval : ℕ) (s : RequestState T L) (newTokenIds : List T)
    (finished : Bool) : Option (RequestState T L) :=
  if 1 < streamInterval then
    if finished = true ∨ s.sentTokensOffset = 0 ∨
        streamInterval ≤ s.tokenIds.length - s.sentTokensOffset then
      { s with sentTokensOffset := s.tokenIds.length }.put
        (s.newCompletionOutput (s.tokenIds.drop s.sentTokensOffset) finished)
    else some s
  else s.put (s.newCompletionOutput newTokenIds finished)

/-- What can happen: an output of the engine, with one logprobs entry for each token, that ends the
request or not (the engine says so, or a stop string is found), an abort, or the consumer. -/
inductive Event (T L : Type)
  | output (new : List (T × L)) (finished : Bool)
  | abort
  | get
  deriving DecidableEq

/-- The detokenizer and the logprobs processor take the tokens of an output; a request that ends
leaves `request_states`. -/
def update (s : RequestState T L) (new : List (T × L)) (finished : Bool) : RequestState T L :=
  { s with
    tokenIds := s.tokenIds ++ new.map Prod.fst
    logprobs := s.logprobs.map (· ++ new.map Prod.snd)
    produced := s.produced ++ new
    registered := !finished }

def step (streamInterval : ℕ) (s : RequestState T L) : Event T L → Option (RequestState T L)
  | .output new finished =>
      if s.registered then
        (s.update new finished).makeRequestOutput streamInterval (new.map Prod.fst) finished
      else some s
  | .abort =>
      if s.registered then { s with registered := false }.makeRequestOutput streamInterval [] true
      else some s
  | .get =>
      match s.output with
      | none => some s
      | some o => some { s with
          output := none
          received := s.received ++ [⟨o.tokenIds, o.logprobs.entries s.logprobs, o.finished⟩] }

/-! ## What the consumer should get -/

/-- **Deltas add up**: as many logprobs as tokens in each output, and once the request has ended
and everything is taken, all tokens and all logprobs in order. -/
structure AddsUp (s : RequestState T L) : Prop where
  lengths : ∀ o ∈ s.received, ∀ l ∈ o.logprobs, l.length = o.tokenIds.length
  tokens : s.registered = false → s.output = none →
    (s.received.map (·.tokenIds)).flatten = s.produced.map Prod.fst
  logprobs : s.logprobs.isSome = true → s.registered = false → s.output = none →
    (s.received.map (·.logprobs.getD [])).flatten = s.produced.map Prod.snd

/-- No output without tokens is built when logprobs are asked for, except at the end of a request
that has produced nothing. -/
def Speaks (streamInterval : ℕ) (s : RequestState T L) : Event T L → Prop
  | .output new finished => s.registered = false ∨ s.logprobs = none ∨ new ≠ [] ∨
      (1 < streamInterval ∧ (s.sentTokensOffset < s.tokenIds.length ∨
        finished = false ∧ s.sentTokensOffset ≠ 0)) ∨ (s.tokenIds = [] ∧ finished = true)
  | .abort => s.registered = false ∨ s.logprobs = none ∨
      (1 < streamInterval ∧ s.sentTokensOffset < s.tokenIds.length) ∨ s.tokenIds = []
  | .get => True

instance [DecidableEq T] [DecidableEq L] (i : ℕ) (s : RequestState T L) (e : Event T L) :
    Decidable (Speaks i s e) :=
  match e with
  | .output _ _ => inferInstanceAs
      (Decidable (_ ∨ _ ∨ _ ≠ _ ∨ (_ ∧ (_ ∨ _ ∧ _ ≠ _)) ∨ (_ ∧ _)))
  | .abort => inferInstanceAs (Decidable (_ ∨ _ ∨ (_ ∧ _) ∨ _))
  | .get => inferInstanceAs (Decidable True)

/-! ## The invariant -/

/-- The output stands for the given tokens with their logprobs. -/
def Shows (processor : Option (List L)) (tokenIds : List T) (entries : Option (List L))
    (chunk : List (T × L)) : Prop :=
  tokenIds = chunk.map Prod.fst ∧ entries = processor.map fun _ => chunk.map Prod.snd

/-- The first `k` tokens of the request were shown to the consumer in chunks, of which the last one
may be pending in the collector. -/
structure Shown (k : ℕ) (s : RequestState T L) : Prop where
  tokenIds : s.tokenIds = s.produced.map Prod.fst
  logprobs : s.logprobs = s.logprobs.map fun _ => s.produced.map Prod.snd
  le : k ≤ s.produced.length
  chunks : ∃ taken pending, taken.flatten ++ pending = s.produced.take k ∧
    Forall₂ (fun o chunk => Shows s.logprobs o.tokenIds o.logprobs chunk) s.received taken ∧
    (s.output = none → pending = []) ∧
    ∀ o ∈ s.output, Shows s.logprobs o.tokenIds (o.logprobs.entries s.logprobs) pending

/-- How many tokens were shown. -/
def shown (streamInterval : ℕ) (s : RequestState T L) : ℕ :=
  if 1 < streamInterval then s.sentTokensOffset else s.produced.length

structure Balanced (streamInterval : ℕ) (s : RequestState T L) : Prop where
  shown : s.Shown (s.shown streamInterval)
  live : s.registered = true → ∀ o ∈ s.output, o.logprobs ≠ .live
  ended : s.registered = false → s.shown streamInterval = s.produced.length

section

variable {i k : ℕ} {s s' : RequestState T L} {finished : Bool}

/-- The slice that belongs to tokens at the end of the list. -/
theorem lastEntries_length_drop {l : List L} (hk : k < l.length) :
    lastEntries l (l.length - k) = l.drop k := by
  have hne : l.length - k ≠ 0 := by omega
  rw [lastEntries, if_neg hne]
  congr 1
  omega

/-- A new output stands for the tokens that were not shown, if there are any or the request ends
without tokens. -/
theorem Shown.newCompletionOutput (h : Shown k s) (finished : Bool)
    (hq : s.logprobs = none ∨ k < s.produced.length ∨ s.produced = []) :
    let next := s.newCompletionOutput ((s.produced.drop k).map Prod.fst) finished
    Shows s.logprobs next.tokenIds (next.logprobs.entries s.logprobs) (s.produced.drop k) := by
  refine ⟨rfl, ?_⟩
  have hl := h.logprobs
  rw [RequestState.newCompletionOutput]
  cases hlp : s.logprobs with
  | none => rfl
  | some l =>
    rw [hlp] at hl
    obtain rfl : l = s.produced.map Prod.snd := Option.some.inj hl
    rcases hq with hq | hq | hq
    · rw [hlp] at hq
      cases hq
    · have hlen : (s.produced.map Prod.snd).length = s.produced.length := length_map _
      have hlast := lastEntries_length_drop (hlen ▸ hq)
      obtain ⟨e, rest, he⟩ := exists_cons_of_length_pos (Nat.zero_lt_of_lt (hlen ▸ hq))
      rw [he]
      change some (lastEntries (e :: rest) _) = some _
      rw [length_map, length_drop, map_drop, ← hlen, ← he, hlast]
    · simp [hq, Logprobs.entries]

/-- The merged output shows the entries of both. -/
theorem add_eq {o next : CompletionOutput T L} {p c : List L} (hlive : o.logprobs ≠ .live)
    (ho : o.logprobs.entries s.logprobs = s.logprobs.map fun _ => p)
    (hn : next.logprobs.entries s.logprobs = s.logprobs.map fun _ => c) :
    ∃ lp ≠ Logprobs.live, lp.entries s.logprobs = (s.logprobs.map fun _ => p ++ c) ∧
      s.add o next = some { s with
        output := some ⟨o.tokenIds ++ next.tokenIds, lp, o.finished || next.finished⟩ } := by
  simp only [RequestState.add, hn]
  cases hlp : s.logprobs with
  | none =>
    rw [hlp] at ho
    exact ⟨o.logprobs, hlive, ho, rfl⟩
  | some l =>
    rw [hlp] at ho
    cases hol : o.logprobs with
    | off => simp [hol, Logprobs.entries] at ho
    | live => exact absurd hol hlive
    | own q =>
      obtain rfl : q = p := by simpa [hol, Logprobs.entries] using ho
      refine ⟨.own (q ++ c), nofun, rfl, ?_⟩
      cases c with
      | nil => simp
      | cons e c => rfl

/-- What is put into the collector is shown. -/
theorem Shown.put {next : CompletionOutput T L} (h : Shown k s)
    (hlive : ∀ o ∈ s.output, o.logprobs ≠ .live)
    (hnext : Shows s.logprobs next.tokenIds (next.logprobs.entries s.logprobs)
      (s.produced.drop k)) :
    ∃ o, s.put next = some { s with output := some o } ∧
      Shown s.produced.length { s with output := some o } ∧
      (o.logprobs = .live → next.logprobs = .live) := by
  obtain ⟨taken, pending, hc, hrec, hnone, hsome⟩ := h.chunks
  have hc' : taken.flatten ++ (pending ++ s.produced.drop k) =
      s.produced.take s.produced.length := by
    rw [← append_assoc, hc, take_append_drop, take_length]
  rw [RequestState.put]
  cases ho : s.output with
  | none =>
    obtain rfl := hnone ho
    refine ⟨next, rfl, ⟨h.tokenIds, h.logprobs, Nat.le_refl _, taken, _, hc', hrec, nofun, ?_⟩, id⟩
    rintro o ⟨⟩
    exact hnext
  | some o =>
    obtain ⟨htok, hent⟩ := hsome o ho
    obtain ⟨lp, hne, hlp, hadd⟩ := add_eq (hlive o ho) hent hnext.2
    refine ⟨_, hadd, ⟨h.tokenIds, h.logprobs, Nat.le_refl _, taken, _, hc', hrec, nofun, ?_⟩,
      fun hl => absurd hl hne⟩
    rintro o' ⟨⟩
    rw [Shows, map_append, map_append, htok, hnext.1]
    exact ⟨rfl, hlp⟩

/-- The list of the processor is handed out only if the request ends without tokens. -/
theorem Shown.not_live {tokenIds : List T} (h : Shown k s)
    (hq : s.logprobs = none ∨ k < s.produced.length ∨ (s.produced = [] ∧ s.registered = false))
    (hreg : s.registered = true) : (s.newCompletionOutput tokenIds finished).logprobs ≠ .live := by
  have hl := h.logprobs
  rw [RequestState.newCompletionOutput]
  cases hlp : s.logprobs with
  | none => nofun
  | some l =>
    cases l with
    | cons e l => nofun
    | nil =>
      rw [hlp] at hl hq
      have hnil : s.produced = [] := map_eq_nil_iff.mp (Option.some.inj hl).symm
      rcases hq with hq | hq | hq
      · cases hq
      · simp [hnil] at hq
      · simp [hreg] at hq

/-- An output with all tokens that were not shown keeps the balance. -/
theorem Shown.emit (h : Shown k s) (hlive : ∀ o ∈ s.output, o.logprobs ≠ .live)
    (hq : s.logprobs = none ∨ k < s.produced.length ∨ (s.produced = [] ∧ s.registered = false))
    (hsent : 1 < i → s.sentTokensOffset = s.produced.length) (finished : Bool) :
    ∃ s', s.put (s.newCompletionOutput ((s.produced.drop k).map Prod.fst) finished) = some s' ∧
      s'.Balanced i := by
  have hnext := h.newCompletionOutput finished (hq.imp_right (Or.imp_right And.left))
  obtain ⟨o, hput, hshown, ho⟩ := h.put hlive hnext
  have hall : shown i { s with output := some o } = s.produced.length := by
    rw [shown]
    split
    · exact hsent ‹_›
    · rfl
  refine ⟨_, hput, hall ▸ hshown, ?_, fun _ => hall⟩
  rintro hreg o' ⟨⟩ hl
  exact h.not_live hq hreg (ho hl)

/-- `make_request_output` keeps the balance unless it builds an output without tokens. -/
theorem Shown.makeRequestOutput {new : List T} (h : Shown k s)
    (hlive : ∀ o ∈ s.output, o.logprobs ≠ .live) (hreg : s.registered = !finished)
    (hk : 1 < i → k = s.sentTokensOffset) (hnew : ¬ 1 < i → new = (s.produced.drop k).map Prod.fst)
    (hq : (1 < i ∧ finished = false ∧ s.sentTokensOffset ≠ 0) ∨ s.logprobs = none ∨
      k < s.produced.length ∨ (s.produced = [] ∧ s.registered = false)) :
    ∃ s', s.makeRequestOutput i new finished = some s' ∧ s'.Balanced i := by
  have hlen : s.tokenIds.length = s.produced.length := by rw [h.tokenIds, length_map]
  rw [RequestState.makeRequestOutput]
  split_ifs with hi hemit
  · obtain rfl := hk hi
    have hdrop : s.tokenIds.drop s.sentTokensOffset =
        (s.produced.drop s.sentTokensOffset).map Prod.fst := by
      rw [h.tokenIds, map_drop]
    have h' : Shown s.sentTokensOffset { s with sentTokensOffset := s.tokenIds.length } :=
      { h with }
    have hq' : s.logprobs = none ∨ s.sentTokensOffset < s.produced.length ∨
        (s.produced = [] ∧ s.registered = false) := by
      rcases hq with ⟨-, hfin, hne⟩ | hq
      · rcases hemit with hf | h0 | hge
        · simp [hfin] at hf
        · exact absurd h0 hne
        · exact .inr (.inl (by omega))
      · exact hq
    rw [hdrop]
    exact h'.emit hlive hq' (fun _ => hlen) finished
  · -- nothing is sent: the request goes on
    have hshown : s.shown i = k := (if_pos hi).trans (hk hi).symm
    refine ⟨s, rfl, hshown ▸ h, fun _ => hlive, fun hr => ?_⟩
    rw [hr] at hreg
    exact absurd (Or.inl (by simpa using hreg.symm)) hemit
  · rw [hnew hi]
    exact h.emit hlive (hq.resolve_left fun hq => hi hq.1) (absurd · hi) finished

/-- The lists grow, what was shown stays. -/
theorem Shown.update (h : Shown k s) (hlive : ∀ o ∈ s.output, o.logprobs ≠ .live)
    (new : List (T × L)) (finished : Bool) : Shown k (s.update new finished) := by
  obtain ⟨taken, pending, hc, hrec, hnone, hsome⟩ := h.chunks
  have hmap (c : List L) : ((s.logprobs.map (· ++ new.map Prod.snd)).map fun _ => c) =
      s.logprobs.map fun _ => c := by
    rw [Option.map_map]
    rfl
  refine ⟨?_, ?_, ?_, taken, pending, ?_, ?_, hnone, ?_⟩
  · change s.tokenIds ++ new.map Prod.fst = (s.produced ++ new).map Prod.fst
    rw [h.tokenIds, map_append]
  · change s.logprobs.map (· ++ new.map Prod.snd) = (s.logprobs.map (· ++ new.map Prod.snd)).map _
    rw [hmap]
    change _ = s.logprobs.map fun _ => (s.produced ++ new).map Prod.snd
    conv_lhs => rw [h.logprobs, Option.map_map]
    simp only [map_append, Function.comp_def]
  · change k ≤ (s.produced ++ new).length
    rw [length_append]
    exact Nat.le_add_right_of_le h.le
  · change _ = (s.produced ++ new).take k
    rw [hc, take_append_of_le_length h.le]
  · exact hrec.imp fun o c ho => ⟨ho.1, ho.2.trans (hmap _).symm⟩
  · intro o ho
    obtain ⟨htok, hent⟩ := hsome o ho
    refine ⟨htok, Eq.trans ?_ (hent.trans (hmap _).symm)⟩
    cases hl : o.logprobs with
    | live => exact absurd hl (hlive o ho)
    | _ => rfl

/-- **Step.** -/
theorem Balanced.step {e : Event T L} (h : s.Balanced i) (hok : Speaks i s e) :
    ∃ s', s.step i e = some s' ∧ s'.Balanced i := by
  have hlen : s.tokenIds.length = s.produced.length := by
    rw [h.shown.tokenIds, length_map]
  have hpos (hi : 1 < i) : s.shown i = s.sentTokensOffset := if_pos hi
  have hneg (hi : ¬ 1 < i) : s.shown i = s.produced.length := if_neg hi
  cases e with
  | get =>
    rw [RequestState.step]
    obtain ⟨taken, pending, hc, hrec, hnone, hsome⟩ := h.shown.chunks
    cases ho : s.output with
    | none => exact ⟨s, rfl, h⟩
    | some o =>
      refine ⟨_, rfl, ⟨h.shown.tokenIds, h.shown.logprobs, h.shown.le, taken ++ [pending], [], ?_,
        ?_, fun _ => rfl, nofun⟩, fun _ => nofun, h.ended⟩
      · rw [flatten_append, flatten_singleton, append_nil]
        exact hc
      · exact rel_append hrec (.cons (hsome o ho) .nil)
  | abort =>
    rw [RequestState.step]
    split_ifs with hreg
    · have h' : Shown (s.shown i) { s with registered := false } :=
        ⟨h.shown.tokenIds, h.shown.logprobs, h.shown.le, h.shown.chunks⟩
      refine h'.makeRequestOutput (h.live hreg) rfl hpos (fun hi => by simp [hneg hi]) (.inr ?_)
      rcases hok with hok | hok | ⟨hi, hok⟩ | hok
      · simp [hreg] at hok
      · exact .inl hok
      · exact .inr (.inl (by rw [hpos hi]; exact hlen ▸ hok))
      · exact .inr (.inr ⟨eq_nil_of_length_eq_zero (by simp [← hlen, hok]), rfl⟩)
    · exact ⟨s, rfl, h⟩
  | output new finished =>
    rw [RequestState.step]
    split_ifs with hreg
    · have h' := h.shown.update (h.live hreg) new finished
      refine h'.makeRequestOutput (h.live hreg) rfl hpos ?_ ?_
      · intro hi
        simp [hneg hi, RequestState.update]
      · have hle := h.shown.le
        have hadd : (s.update new finished).produced.length = s.produced.length + new.length :=
          length_append
        rw [hadd]
        rcases hok with hok | hok | hok | ⟨hi, hok | ⟨hfin, hok⟩⟩ | ⟨hnil, hfin⟩
        · simp [hreg] at hok
        · exact .inr (.inl (by simp [RequestState.update, hok]))
        · have := length_pos_iff.mpr hok
          exact .inr (.inr (.inl (by omega)))
        · exact .inr (.inr (.inl (by omega)))
        · exact .inl ⟨hi, hfin, hok⟩
        · cases new with
          | nil =>
            have hprod : s.produced = [] := eq_nil_of_length_eq_zero (by simp [← hlen, hnil])
            exact .inr (.inr (.inr ⟨by simp [RequestState.update, hprod], by
              simp [RequestState.update, hfin]⟩))
          | cons x new => exact .inr (.inr (.inl (by simp; omega)))
    · exact ⟨s, rfl, h⟩

/-- Outputs that stand for chunks consist of the tokens and logprobs of the chunks. -/
theorem received_eq {processor : Option (List L)} {received : List (Received T L)}
    {taken : List (List (T × L))}
    (h : Forall₂ (fun o chunk => Shows processor o.tokenIds o.logprobs chunk) received taken) :
    (∀ o ∈ received, ∀ l ∈ o.logprobs, l.length = o.tokenIds.length) ∧
      received.map (·.tokenIds) = taken.map (List.map Prod.fst) ∧
      (processor.isSome = true →
        received.map (·.logprobs.getD []) = taken.map (List.map Prod.snd)) := by
  induction h with
  | nil => simp
  | cons hshows _ ih =>
    obtain ⟨htok, hent⟩ := hshows
    obtain ⟨hlen, htoks, hents⟩ := ih
    refine ⟨forall_mem_cons.mpr ⟨?_, hlen⟩, ?_, fun hp => ?_⟩
    · intro l hl
      obtain ⟨_, -, rfl⟩ := Option.map_eq_some_iff.mp (hent.symm.trans hl)
      rw [htok, length_map, length_map]
    · rw [map_cons, map_cons, htok, htoks]
    · obtain ⟨l, rfl⟩ := Option.isSome_iff_exists.mp hp
      rw [map_cons, map_cons, hent, hents hp]
      rfl

/-- A balanced request adds up. -/
theorem Balanced.addsUp (h : s.Balanced i) : s.AddsUp := by
  obtain ⟨taken, pending, hc, hrec, hnone, -⟩ := h.shown.chunks
  obtain ⟨hlen, htoks, hents⟩ := received_eq hrec
  have hall (hr : s.registered = false) (ho : s.output = none) : taken.flatten = s.produced := by
    rw [h.ended hr, take_length, hnone ho, append_nil] at hc
    exact hc
  refine ⟨hlen, fun hr ho => ?_, fun hlp hr ho => ?_⟩
  · rw [← hall hr ho, map_flatten, htoks]
  · rw [← hall hr ho, map_flatten, hents hlp]

end

/-- A new request. -/
def fromNewRequest (wantLogprobs : Bool) : RequestState T L where
  logprobs := if wantLogprobs then some [] else none

/-- **Deltas add up**, at any stream interval and any timing of the consumer, in every run that
builds no output without tokens; and no assertion fails there. -/
theorem deltas_add_up (streamInterval : ℕ) (wantLogprobs : Bool) {s : RequestState T L}
    (h : Reach (step streamInterval) (Speaks streamInterval) (fromNewRequest wantLogprobs) s) :
    s.AddsUp ∧ ∀ e, Speaks streamInterval s e → (s.step streamInterval e).isSome = true := by
  have hbal : s.Balanced streamInterval := by
    refine h.invariant (Balanced streamInterval) ?_ ?_
    · have hempty : shown streamInterval (fromNewRequest wantLogprobs : RequestState T L) = 0 := by
        rw [shown]
        split <;> rfl
      refine ⟨⟨rfl, ?_, hempty ▸ Nat.le_refl _, [], [], by simp [fromNewRequest], .nil,
        fun _ => rfl, nofun⟩, fun _ => nofun, nofun⟩
      cases wantLogprobs <;> rfl
    · intro s e s' hs hok hstep
      obtain ⟨s'', hstep', hs''⟩ := hs.step hok
      obtain rfl := Option.some.inj (hstep.symm.trans hstep')
      exact hs''
  refine ⟨hbal.addsUp, fun e he => ?_⟩
  obtain ⟨s', hs', -⟩ := hbal.step he
  rw [hs']
  rfl

/-- Every second token is sent. The consumer is late, so that the first two outputs are merged. -/
def lateConsumer : List (Event ℕ ℕ) :=
  [.output [(5, 50)] false, .output [(6, 60)] false, .output [(7, 70)] false, .get,
    .output [(8, 80)] true, .get]

theorem two_deltas_add_up : ∃ s : RequestState ℕ ℕ,
    run (step 2) (fromNewRequest true) lateConsumer = some s ∧
      s.received = [⟨[5, 6, 7], some [50, 60, 70], false⟩, ⟨[8], some [80], true⟩] ∧
      s.AddsUp := by
  obtain ⟨s, hs, hr, hl⟩ : ∃ s ∈ run (guarded (Speaks 2) (step 2))
      (fromNewRequest true : RequestState ℕ ℕ) lateConsumer,
      run (step 2) (fromNewRequest true) lateConsumer = some s ∧
        s.received = [⟨[5, 6, 7], some [50, 60, 70], false⟩, ⟨[8], some [80], true⟩] := by
    decide +kernel
  exact ⟨s, hr, hl, (deltas_add_up 2 true (Reach.of_guarded_run .init hs)).1⟩

/-- An abort after two tokens: its output has no token and the logprobs of both once more. -/
theorem abort_repeats_logprobs : ∃ s : RequestState ℕ ℕ,
    run (step 1) (fromNewRequest true)
      [.output [(5, 50), (6, 60)] false, .get, .abort, .get] = some s ∧
      s.received = [⟨[5, 6], some [50, 60], false⟩, ⟨[], some [50, 60], true⟩] ∧ ¬ s.AddsUp := by
  refine ⟨_, rfl, rfl, fun h => ?_⟩
  have := h.lengths ⟨[], some [50, 60], true⟩ (by decide) [50, 60] rfl
  cases this

end RequestState

end Nvllm.Output
