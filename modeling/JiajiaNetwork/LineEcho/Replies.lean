/- The replies of `test_libevent/demo1.c` and how the input is cut: one line is answered for each
   arrival, so that lines which arrive together wait for later input. -/
import JiajiaNetwork.LineEcho.Server

set_option autoImplicit false
set_option relaxedAutoImplicit false

namespace JiajiaNetwork.LineEcho

open Lib

variable {R : LineReader Byte}

theorem cString_clean {buf : List Byte} : ∀ {text : List Byte}, cString buf = some text →
    (0 : Byte) ∉ text := by
  induction buf with
  | nil => exact nofun
  | cons b rest ih =>
    intro text found
    unfold cString at found
    split_ifs at found with zero
    · obtain rfl := Option.some.inj found
      exact List.not_mem_nil
    · obtain ⟨later, ends, rfl⟩ := Option.map_eq_some_iff.mp found
      rw [List.mem_cons, not_or]
      exact ⟨Ne.symm zero, ih ends⟩

/-- A text without zero bytes is printed whole, and no other. -/
theorem youSaid_eq_iff {line : List Byte} : youSaid line = reply line ↔ (0 : Byte) ∉ line := by
  rw [youSaid, reply, List.append_left_inj, List.append_right_inj]
  constructor
  · intro whole
    rw [← whole]
    cases text : cString (line ++ [0]) with
    | none => exact List.not_mem_nil
    | some printed => exact cString_clean text
  · intro clean
    rw [cString_append_zero [] clean, Option.getD_some]

theorem map_youSaid_iff {lines : List (List Byte)} :
    lines.map youSaid = lines.map reply ↔ ∀ line ∈ lines, (0 : Byte) ∉ line := by
  rw [List.map_inj_left]
  simp only [youSaid_eq_iff]

theorem serve_concat {readline : Readline} (chunks : List (List Byte)) (chunk : List Byte) :
    serve readline (chunks ++ [chunk]) = arrives readline (serve readline chunks) chunk := by
  rw [serve, List.foldl_append]
  rfl

/-- The lines that were answered, and how the rest of the input goes on. -/
structure Answers (R : LineReader Byte) (stream : List Byte) (lines : List (List Byte))
    (incoming : Bufferevent) : Prop where
  output : incoming.output = lines.map youSaid
  later : ∀ more, R.lines (stream ++ more) = lines ++ R.lines (incoming.input ++ more)

/-- One arrival answers the next line if there is one. -/
theorem Answers.arrives {stream : List Byte} {lines : List (List Byte)} {incoming : Bufferevent}
    (answers : Answers R stream lines incoming) (chunk : List Byte) : ∃ lines',
    Answers R (stream ++ chunk) lines' (arrives R.readline incoming chunk) ∧
      lines'.length = min (lines.length + 1) (R.lines (stream ++ chunk)).length := by
  unfold LineEcho.arrives bufReadCallback
  cases read : R.readline (incoming.input ++ chunk) with
  | none =>
    have all : R.lines (stream ++ chunk) = lines := by
      rw [answers.later chunk, LineReader.lines_none read, List.append_nil]
    refine ⟨lines, ⟨answers.output, ?_⟩, ?_⟩
    · intro more
      simp only
      rw [List.append_assoc, List.append_assoc, answers.later]
    · rw [all]
      omega
  | some found =>
    obtain ⟨req, rest⟩ := found
    have next : ∀ more, R.lines (stream ++ chunk ++ more) =
        lines ++ [req] ++ R.lines (rest ++ more) := by
      intro more
      have goes_on := R.stable read more
      rw [List.append_assoc] at goes_on
      rw [List.append_assoc, answers.later, LineReader.lines_some goes_on, List.append_assoc]
      rfl
    refine ⟨lines ++ [req], ⟨?_, next⟩, ?_⟩
    · simp only
      rw [answers.output, List.map_append]
      rfl
    · have count := congrArg List.length (next [])
      simp only [List.append_nil, List.length_append, List.length_singleton] at count ⊢
      omega

/-- What was answered after some arrivals are the first lines of the stream. -/
theorem serve_answers (R : LineReader Byte) (chunks : List (List Byte)) :
    ∃ lines, Answers R chunks.flatten lines (serve R.readline chunks) := by
  induction chunks using List.reverseRecOn with
  | nil => exact ⟨[], rfl, fun more => rfl⟩
  | append_singleton chunks chunk ih =>
    obtain ⟨lines, answers⟩ := ih
    obtain ⟨lines', answers', -⟩ := answers.arrives chunk
    refine ⟨lines', ?_⟩
    rw [serve_concat, List.flatten_append, List.flatten_singleton]
    exact answers'

theorem length_serve (chunks : List (List Byte)) (chunk : List Byte) :
    (serve R.readline (chunks ++ [chunk])).output.length =
      min ((serve R.readline chunks).output.length + 1)
        (R.lines (chunks ++ [chunk]).flatten).length := by
  obtain ⟨lines, answers⟩ := serve_answers R chunks
  obtain ⟨lines', answers', count⟩ := answers.arrives chunk
  rw [serve_concat, answers'.output, answers.output, List.length_map, List.length_map, count,
    List.flatten_append, List.flatten_singleton]

/-- As many lines are answered as the rounds allow. -/
theorem le_length_serve_iff (chunks : List (List Byte)) (n : Nat) :
    n ≤ (serve R.readline chunks).output.length ↔ ∀ front back, front ++ back = chunks →
      n ≤ (R.lines front.flatten).length + back.length := by
  exact le_served_iff (fun chunks => (R.lines chunks.flatten).length)
    (fun chunks => (serve R.readline chunks).output.length) rfl length_serve chunks n

/-- The replies are one for each complete line of the stream, exactly if at every point the lines
that are completed later are no more than the chunks that arrive later, and no line has a zero
byte. -/
theorem replies_iff (R : LineReader Byte) (chunks : List (List Byte)) :
    (serve R.readline chunks).output = (R.lines chunks.flatten).map reply ↔
      (∀ front back, front ++ back = chunks → (R.lines chunks.flatten).length ≤
        (R.lines front.flatten).length + back.length) ∧
      ∀ line ∈ R.lines chunks.flatten, (0 : Byte) ∉ line := by
  obtain ⟨lines, answers⟩ := serve_answers R chunks
  have whole : R.lines chunks.flatten = lines ++ R.lines (serve R.readline chunks).input := by
    simpa using answers.later []
  have served : (serve R.readline chunks).output.length = lines.length := by
    rw [answers.output, List.length_map]
  rw [← le_length_serve_iff, served]
  constructor
  · intro same
    have count : lines.length = (R.lines chunks.flatten).length := by
      rw [← served, same, List.length_map]
    have all : R.lines chunks.flatten = lines := by
      rw [whole, List.length_append] at count
      rw [whole, List.append_right_eq_self, ← List.length_eq_zero_iff]
      omega
    refine ⟨Nat.le_of_eq count.symm, ?_⟩
    rw [answers.output, all] at same
    rw [all]
    exact map_youSaid_iff.mp same
  · rintro ⟨enough, clean⟩
    have all : R.lines chunks.flatten = lines := by
      rw [whole, List.length_append] at enough
      rw [whole, List.append_right_eq_self, ← List.length_eq_zero_iff]
      omega
    rw [all] at clean
    rw [answers.output, all]
    exact map_youSaid_iff.mpr clean

/-- Two lines that arrive together: the second one is not answered, though it is when the same
stream arrives line by line. -/
theorem second_line_unanswered :
    (serve newlineLine [[104, 105, 10, 121, 111, 10]]).output ≠
        (newlineReader.lines [104, 105, 10, 121, 111, 10]).map reply ∧
      (serve newlineLine [[104, 105, 10], [121, 111, 10]]).output =
        (newlineReader.lines [104, 105, 10, 121, 111, 10]).map reply := by
  decide +kernel

end JiajiaNetwork.LineEcho
