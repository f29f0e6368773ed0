import Mathlib.Data.List.TakeWhile
import Nvllm.Lib.Run

/-! # Streamed reasoning

`Qwen3ReasoningParser` and the part of the streaming chat loop that uses it, for one choice whose
prompt leaves the reasoning section open. `tools` says whether the tool choice is automatic; the
tool parser then passes the content through. A tag occurs in a text only where its token is decoded,
so it is one symbol here. The texts before a delta reach only parsers that do not read them, and
`added_content_delta` is set in the turn that sets `reasoning_end`; both are left out.
-/

namespace Nvllm.Output.Reasoning

open Nvllm.Run List

inductive Symbol
  | start
  | stop
  | char (c : Char)
  deriving DecidableEq

abbrev Text := List Symbol

/-- `t.partition(tag)`, without the tag. -/
def partition (tag : Symbol) (t : Text) : Text × Text :=
  (t.takeWhile (· ≠ tag), (t.dropWhile (· ≠ tag)).tail)

/-- `t or None`. -/
def orNone (t : Text) : Option Text := if t = [] then none else some t

structure DeltaMessage where
  reasoning : Option Text := none
  content : Option Text := none
  deriving DecidableEq

/-- The reasoning and the content of messages. -/
def texts (ms : List DeltaMessage) : Text × Text :=
  (ms.flatMap fun m => m.reasoning.getD [], ms.flatMap fun m => m.content.getD [])

/-- What is left after the first start tag, or the whole text without one. -/
def stripStart (t : Text) : Text := if .start ∈ t then (partition .start t).2 else t

def extractReasoning (thinkingEnabled : Bool) (modelOutput : Text) : Option Text × Option Text :=
  let modelOutput := stripStart modelOutput
  if .stop ∉ modelOutput then
    if thinkingEnabled then (some modelOutput, none) else (none, some modelOutput)
  else (some (partition .stop modelOutput).1, orNone (partition .stop modelOutput).2)

structure Tokenizer where
  startTokenId : ℤ
  endTokenId : ℤ
  /-- the text of any other token -/
  decode : ℤ → List Char
  distinct : startTokenId ≠ endTokenId

/-- The loop for one choice. -/
structure Stream where
  allPreviousTokenIds : List ℤ := []
  reasoningEnd : Bool := false
  /-- the messages sent -/
  sent : List DeltaMessage := []
  /-- all tokens so far, for the statements only -/
  generated : List ℤ := []
  deriving DecidableEq

namespace Tokenizer

variable (k : Tokenizer)

def text (ids : List ℤ) : Text :=
  ids.flatMap fun id =>
    if id = k.startTokenId then [.start]
    else if id = k.endTokenId then [.stop]
    else (k.decode id).map .char

def extractReasoningStreaming (previousTokenIds deltaTokenIds : List ℤ) (deltaText : Text) :
    Option DeltaMessage :=
  let deltaText := if k.startTokenId ∈ deltaTokenIds then stripStart deltaText else deltaText
  if k.endTokenId ∈ deltaTokenIds then
    if .stop ∈ deltaText then
      let (reasoning, content) := partition .stop deltaText
      if reasoning = [] ∧ content = [] then none
      else some { reasoning := orNone reasoning, content := orNone content }
    else none
  else if deltaText = [] then none
  else if k.endTokenId ∈ previousTokenIds then some { content := some deltaText }
  else some { reasoning := some deltaText }

/-- The last tag is an end tag. -/
def isReasoningEnd (inputIds : List ℤ) : Bool :=
  match inputIds.reverse.find? fun id => id = k.startTokenId ∨ id = k.endTokenId with
  | some id => id ≠ k.startTokenId
  | none => false

def extractContentIds (inputIds : List ℤ) : List ℤ :=
  if k.endTokenId ∉ inputIds.dropLast then []
  else (inputIds.dropWhile (· ≠ k.endTokenId)).tail

/-- `extract_tool_calls_streaming` of a tool parser that finds no tool call. -/
def passThrough (deltaText : Text) : Option DeltaMessage :=
  (orNone deltaText).map fun t => { content := some t }

/-- The loop receives one delta. -/
def step (tools : Bool) (s : Stream) (outputTokenIds : List ℤ) : Stream :=
  let deltaText := k.text outputTokenIds
  let message := k.extractReasoningStreaming s.allPreviousTokenIds outputTokenIds deltaText
  let generated := s.generated ++ outputTokenIds
  let currentTokenIds := s.allPreviousTokenIds ++ outputTokenIds
  if tools ∧ s.reasoningEnd then
    { s with
      allPreviousTokenIds := currentTokenIds, generated
      sent := s.sent ++ (passThrough deltaText).toList }
  else if tools ∧ k.isReasoningEnd outputTokenIds then
    -- the message of the tool parser replaces the one of the reasoning parser
    { s with
      allPreviousTokenIds := k.extractContentIds outputTokenIds
      reasoningEnd := true, generated
      sent := s.sent ++ (passThrough ((message.bind (·.content)).getD [])).toList }
  else { s with
    allPreviousTokenIds := currentTokenIds, generated, sent := s.sent ++ message.toList }

/-- **Streamed is parsed.** `None` is read as empty. -/
def Agrees (s : Stream) : Prop :=
  let (reasoning, content) := extractReasoning true (k.text s.generated)
  texts s.sent = (reasoning.getD [], content.getD [])

/-- A start token comes first, end tokens come in one delta only, and with tools there is no
reasoning in the delta that ends it. -/
@[mk_iff]
structure Opens (tools : Bool) (s : Stream) (ids : List ℤ) : Prop where
  start : k.startTokenId ∈ ids →
    k.text s.generated = [] ∧ .stop ∉ (partition .start (k.text ids)).1
  stop : k.endTokenId ∈ ids → k.endTokenId ∉ s.generated
  last : tools = true → k.isReasoningEnd ids = true →
    (partition .stop (stripStart (k.text ids))).1 = []

/-- After the reasoning the loop with tools passes any tag through, but the first start tag is taken
out of the parsed text. -/
def Clean (tools : Bool) (s : Stream) (ids : List ℤ) : Prop :=
  (tools = true ∧ s.reasoningEnd = true ∧ (k.startTokenId ∈ ids → k.startTokenId ∈ s.generated)) ∨
    (¬(tools = true ∧ s.reasoningEnd = true) ∧ k.Opens tools s ids)

instance (tools : Bool) (s : Stream) (ids : List ℤ) : Decidable (k.Opens tools s ids) :=
  decidable_of_iff' _ (k.opens_iff tools s ids)

instance (tools : Bool) (s : Stream) (ids : List ℤ) : Decidable (k.Clean tools s ids) :=
  inferInstanceAs (Decidable (_ ∨ _))

end Tokenizer

/-! ## Texts -/

section

variable {k : Tokenizer} {tag : Symbol} {a b t : Text} {ids : List ℤ}

theorem partition_append_of_not_mem (h : tag ∉ a) :
    partition tag (a ++ b) = (a ++ (partition tag b).1, (partition tag b).2) := by
  induction a with
  | nil => rfl
  | cons x a ih =>
    obtain ⟨hx, ha⟩ := not_or.mp (mt mem_cons.mpr h)
    simp_all [partition, Ne.symm hx]

theorem partition_of_not_mem (h : tag ∉ t) : partition tag t = (t, []) := by
  have := partition_append_of_not_mem (b := []) h
  simpa [partition] using this

theorem partition_middle (h : tag ∉ a) : partition tag (a ++ tag :: b) = (a, b) := by
  rw [partition_append_of_not_mem h]
  simp [partition]

theorem partition_append_of_mem (h : tag ∈ a) :
    partition tag (a ++ b) = ((partition tag a).1, (partition tag a).2 ++ b) := by
  obtain ⟨l, r, rfl, hl⟩ := eq_append_cons_of_mem h
  rw [append_assoc, cons_append, partition_middle hl, partition_middle hl]

theorem getD_orNone (t : Text) : (orNone t).getD [] = t := by
  unfold orNone
  split
  · exact Eq.symm ‹_›
  · rfl

theorem Tokenizer.stop_mem_text : .stop ∈ k.text ids ↔ k.endTokenId ∈ ids := by
  simp only [text, mem_flatMap]
  constructor
  · rintro ⟨id, hid, h⟩
    split at h
    · simp at h
    · split at h
      · exact ‹id = _› ▸ hid
      · simp at h
  · intro h
    exact ⟨_, h, by simp [k.distinct.symm]⟩

theorem Tokenizer.start_mem_text : .start ∈ k.text ids ↔ k.startTokenId ∈ ids := by
  simp only [text, mem_flatMap]
  constructor
  · rintro ⟨id, hid, h⟩
    split at h
    · exact ‹id = _› ▸ hid
    · split at h <;> simp at h
  · intro h
    exact ⟨_, h, by simp⟩

/-- After the first start tag the text is kept as it is. -/
theorem stripStart_append_left (h : .start ∈ b → .start ∈ a) :
    stripStart (a ++ b) = stripStart a ++ b := by
  unfold stripStart
  by_cases ha : .start ∈ a
  · rw [if_pos (mem_append_left _ ha), if_pos ha, partition_append_of_mem ha]
  · rw [if_neg fun hm => ha ((mem_append.mp hm).elim id h), if_neg ha]

/-- With the start tag at the beginning a text is stripped delta by delta. -/
theorem stripStart_append (h : .start ∈ b → a = []) :
    stripStart (a ++ b) = stripStart a ++ stripStart b := by
  by_cases hb : .start ∈ b
  · rw [h hb]
    rfl
  · rw [show stripStart b = b from if_neg hb]
    exact stripStart_append_left fun h => absurd h hb

theorem stop_mem_stripStart (h : .start ∈ t → .stop ∉ (partition .start t).1) :
    .stop ∈ stripStart t ↔ .stop ∈ t := by
  unfold stripStart
  split
  · rename_i hstart
    have hnot := h hstart
    obtain ⟨l, r, rfl, hl⟩ := eq_append_cons_of_mem hstart
    rw [partition_middle hl] at hnot ⊢
    simp [hnot]
  · rfl

end

/-! ## One delta -/

section

variable {k : Tokenizer} {tools : Bool} {s : Stream} {ids : List ℤ}

/-- What a delta adds to the reasoning and to the content. -/
def added (ended : Prop) [Decidable ended] (d : Text) : Text × Text :=
  if .stop ∈ d then partition .stop d else if ended then ([], d) else (d, [])

/-- The text is parsed delta by delta. -/
theorem partition_append {v d : Text} (h : .stop ∈ d → .stop ∉ v) :
    partition .stop (v ++ d) = ((partition .stop v).1 ++ (added (.stop ∈ v) d).1,
      (partition .stop v).2 ++ (added (.stop ∈ v) d).2) := by
  unfold added
  split
  · rename_i hd
    rw [partition_append_of_not_mem (h hd), partition_of_not_mem (h hd)]
    rfl
  · rename_i hd
    split
    · rename_i hv
      rw [partition_append_of_mem hv, append_nil]
    · rename_i hv
      rw [partition_append_of_not_mem hv, partition_of_not_mem hv, partition_of_not_mem hd]
      rfl

theorem texts_passThrough (t : Text) : texts (Tokenizer.passThrough t).toList = ([], t) := by
  unfold Tokenizer.passThrough orNone texts
  split <;> simp_all

theorem texts_streaming (previous : List ℤ)
    (h : .start ∈ k.text ids → .stop ∉ (partition .start (k.text ids)).1) :
    texts (k.extractReasoningStreaming previous ids (k.text ids)).toList =
      added (k.endTokenId ∈ previous) (stripStart (k.text ids)) := by
  have hstrip : (if k.startTokenId ∈ ids then stripStart (k.text ids) else k.text ids) =
      stripStart (k.text ids) := by
    split
    · rfl
    · exact (if_neg (mt Tokenizer.start_mem_text.mp ‹_›)).symm
  unfold Tokenizer.extractReasoningStreaming added
  simp only [hstrip, ← Tokenizer.stop_mem_text, stop_mem_stripStart h]
  split
  · split <;> simp_all [texts, getD_orNone, Prod.ext_iff]
  · split
    · split <;> simp_all [texts]
    · split <;> simp_all [texts]

theorem Tokenizer.end_mem_of_isReasoningEnd (h : k.isReasoningEnd ids = true) :
    k.endTokenId ∈ ids := by
  unfold isReasoningEnd at h
  split at h
  · rename_i id hid
    have htag := find?_some hid
    have hmem := mem_reverse.mp (mem_of_find?_eq_some hid)
    simp_all
  · cases h

/-- The stream so far, in terms of the text that is left of the generated one. -/
structure Streamed (k : Tokenizer) (tools : Bool) (s : Stream) : Prop where
  texts : texts s.sent = partition .stop (stripStart (k.text s.generated))
  ended : .stop ∈ stripStart (k.text s.generated) ↔ k.endTokenId ∈ s.generated
  previous : ¬(tools ∧ s.reasoningEnd) → s.allPreviousTokenIds = s.generated
  past : tools ∧ s.reasoningEnd → k.endTokenId ∈ s.generated

/-- Messages that carry what a delta adds keep the stream in step. -/
theorem Streamed.extend {s' : Stream} {ms : List DeltaMessage} {d : Text} (h : Streamed k tools s)
    (hgen : s'.generated = s.generated ++ ids) (hsent : s'.sent = s.sent ++ ms)
    (htext : stripStart (k.text (s.generated ++ ids)) = stripStart (k.text s.generated) ++ d)
    (hmem : .stop ∈ d ↔ k.endTokenId ∈ ids)
    (hparts : partition .stop (stripStart (k.text s.generated) ++ d) =
      ((Reasoning.texts s.sent).1 ++ (Reasoning.texts ms).1,
        (Reasoning.texts s.sent).2 ++ (Reasoning.texts ms).2))
    (hopen : ¬(tools ∧ s'.reasoningEnd) → s'.allPreviousTokenIds = s'.generated)
    (hclosed : tools ∧ s'.reasoningEnd → k.endTokenId ∈ s'.generated) : Streamed k tools s' := by
  refine ⟨?_, ?_, hopen, hclosed⟩
  · rw [hgen, htext, hparts, hsent]
    exact Prod.ext flatMap_append flatMap_append
  · rw [hgen, htext, mem_append, mem_append, h.ended, hmem]

/-- A delta before the end of the reasoning. -/
theorem Streamed.extend_open {s' : Stream} {ms : List DeltaMessage} (h : Streamed k tools s)
    (hc : k.Opens tools s ids) (hgen : s'.generated = s.generated ++ ids)
    (hsent : s'.sent = s.sent ++ ms)
    (hms : Reasoning.texts ms = added (k.endTokenId ∈ s.generated) (stripStart (k.text ids)))
    (hopen : ¬(tools ∧ s'.reasoningEnd) → s'.allPreviousTokenIds = s'.generated)
    (hclosed : tools ∧ s'.reasoningEnd → k.endTokenId ∈ s'.generated) : Streamed k tools s' := by
  have hstart := hc.start
  rw [← Tokenizer.start_mem_text] at hstart
  have hmem := stop_mem_stripStart fun hs => (hstart hs).2
  rw [Tokenizer.stop_mem_text] at hmem
  refine h.extend hgen hsent ?_ hmem ?_ hopen hclosed
  · rw [Tokenizer.text, flatMap_append]
    exact stripStart_append fun hs => (hstart hs).1
  · rw [partition_append, h.texts, hms]
    · simp only [h.ended]
    · rw [hmem, h.ended]
      exact hc.stop

theorem Streamed.step (h : Streamed k tools s) (hc : k.Clean tools s ids) :
    Streamed k tools (k.step tools s ids) := by
  unfold Tokenizer.step
  split
  · -- after the reasoning the text is content as it is
    rename_i hclosed
    obtain ⟨-, -, hstart⟩ := hc.resolve_right fun hn => hn.1 hclosed
    have hpast := h.past hclosed
    refine h.extend (d := k.text ids) rfl rfl ?_ Tokenizer.stop_mem_text ?_ (absurd hclosed)
      fun _ => mem_append_left _ hpast
    · rw [Tokenizer.text, flatMap_append]
      refine stripStart_append_left fun hs => ?_
      exact Tokenizer.start_mem_text.mpr (hstart (Tokenizer.start_mem_text.mp hs))
    · rw [partition_append_of_mem (h.ended.mpr hpast), texts_passThrough, h.texts, append_nil]
  · rename_i hopen
    obtain ⟨-, hc⟩ := hc.resolve_left fun hn => hopen ⟨hn.1, hn.2.1⟩
    have hnot := fun hs => (hc.start (Tokenizer.start_mem_text.mp hs)).2
    have hstream := texts_streaming s.generated hnot
    rw [h.previous hopen]
    split
    · -- the delta ends the reasoning, and has none of it
      rename_i hends
      have hin := Tokenizer.end_mem_of_isReasoningEnd hends.2
      have hstop := (stop_mem_stripStart hnot).mpr (Tokenizer.stop_mem_text.mpr hin)
      refine h.extend_open hc rfl rfl ?_ (fun hn => absurd ⟨hends.1, rfl⟩ hn)
        fun _ => mem_append_right _ hin
      rw [texts_passThrough, ← hstream]
      rw [added, if_pos hstop] at hstream
      refine Prod.ext ?_ ?_
      · rw [hstream, hc.last hends.1 hends.2]
      · cases k.extractReasoningStreaming s.generated ids (k.text ids) <;> simp [Reasoning.texts]
    · exact h.extend_open hc rfl rfl hstream (fun _ => rfl) fun hn => absurd hn hopen

theorem Streamed.agrees (h : Streamed k tools s) : k.Agrees s := by
  unfold Tokenizer.Agrees extractReasoning
  rw [h.texts]
  by_cases hs : .stop ∈ stripStart (k.text s.generated)
  · simp [hs, getD_orNone]
  · simp [hs, partition_of_not_mem]

end

/-- **Streamed reasoning is parsed reasoning**, however the tokens are grouped into deltas, in every
run of the loop whose deltas are clean. -/
theorem streamed_eq_parsed (k : Tokenizer) (tools : Bool) {s : Stream}
    (h : Reach (fun s ids => some (k.step tools s ids)) (k.Clean tools) {} s) : k.Agrees s := by
  refine (h.invariant (Streamed k tools) ?_ ?_).agrees
  · exact ⟨rfl, by simp [Tokenizer.text, stripStart], fun _ => rfl, fun hc => by cases hc.2⟩
  · intro s ids s' hs hc hstep
    cases hstep
    exact hs.step hc

/-- Tags `1` and `2`; any other token is the letter x. -/
def letters : Tokenizer := ⟨1, 2, fun _ => ['x'], by decide⟩

/-- Reasoning and content, with the end tag in a delta of its own and both tags in the content. -/
theorem separate_end_is_parsed : ∃ s : Stream,
    run (fun s ids => some (letters.step true s ids)) {} [[1, 3], [2], [4], [2, 4, 1]] = some s ∧
      s.sent.length = 3 ∧ letters.Agrees s := by
  obtain ⟨s, hs, hr, hl⟩ : ∃ s ∈ run (guarded (letters.Clean true)
      fun s ids => some (letters.step true s ids)) {} [[1, 3], [2], [4], [2, 4, 1]],
      run (fun s ids => some (letters.step true s ids)) {} [[1, 3], [2], [4], [2, 4, 1]] = some s ∧
        s.sent.length = 3 := by
    decide +kernel
  exact ⟨s, hr, hl, streamed_eq_parsed letters true (Reach.of_guarded_run .init hs)⟩

/-- One delta with reasoning and its end: the message that holds the reasoning is replaced. -/
theorem reasoning_is_replaced : ¬ letters.Agrees (letters.step true {} [3, 2]) := by
  unfold Tokenizer.Agrees
  decide

end Nvllm.Output.Reasoning
