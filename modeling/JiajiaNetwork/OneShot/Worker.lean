/- The loop of a one-shot worker around `recv`, with its buffer. The buffer is cleared once, so
   that what is printed of it ends with the rest of an earlier, longer chunk; and the loop goes
   on after any error but `EAGAIN`. -/
import JiajiaNetwork.OneShot.Server

set_option autoImplicit false
set_option relaxedAutoImplicit false

namespace JiajiaNetwork.OneShot

open Lib Machine

/-- What the worker does in its loop besides `recv`. Without a zero byte in the buffer `printf`
would read past its end. -/
inductive Call
  | printf (text : Option (List Byte))
  | close
  | resetOnshot
  deriving DecidableEq

/-- The calls of a loop in order, and whether a `break` has left it. -/
structure Served where
  calls : List Call
  left : Bool

def Served.after (call : Call) (x : Served) : Served := ⟨call :: x.calls, x.left⟩

/-- The loop of `worker` with what `recv` returns in turn, as far as it is known. -/
def serve (buf : List Byte) : List Answer → Served
  | [] => ⟨[], false⟩
  | .received bytes :: later =>
    if bytes.length = 0 then ⟨[.close], true⟩
    else (serve (overlay bytes buf) later).after (.printf (cString (overlay bytes buf)))
  | .eagain :: _ => ⟨[.resetOnshot], true⟩
  | .failed :: later => serve buf later

def worker (answers : List Answer) : Served := serve (List.replicate bufferSize 0) answers

/-- The chunks that `recv` returns before the loop is left. -/
def chunks : List Answer → List (List Byte)
  | [] => []
  | .received bytes :: later => if bytes.length = 0 then [] else bytes :: chunks later
  | .eagain :: _ => []
  | .failed :: later => chunks later

def Call.text? : Call → Option (Option (List Byte))
  | .printf text => some text
  | .close | .resetOnshot => none

/-- The texts that the worker prints. -/
def Served.texts (x : Served) : List (Option (List Byte)) := x.calls.filterMap Call.text?

/-- The end of the stream, or `EAGAIN`. -/
def Answer.Ends : Answer → Prop
  | .received bytes => bytes.length = 0
  | .eagain => True
  | .failed => False

/-- A loop that is left has closed the socket or armed it again, and not both. -/
def Served.Settled (x : Served) : Prop :=
  x.left = true → Xor (Call.close ∈ x.calls) (Call.resetOnshot ∈ x.calls)

/-- With these answers of `recv`, one call after the other, the worker leaves its loop. -/
def Terminates (answers : Nat → Answer) : Prop :=
  (∃ n, (worker ((List.range n).map answers)).left = true) ∧
    ∀ n, (worker ((List.range n).map answers)).Settled

theorem mem_of_mem_chunks {answers : List Answer} {bytes : List Byte}
    (got : bytes ∈ chunks answers) : .received bytes ∈ answers := by
  induction answers with
  | nil => cases got
  | cons answer later ih =>
    cases answer with
    | eagain => cases got
    | failed => exact List.mem_cons_of_mem _ (ih got)
    | received first =>
      rw [chunks] at got
      split_ifs at got with ended
      · cases got
      · rcases List.mem_cons.mp got with rfl | rest
        · exact List.mem_cons_self
        · exact List.mem_cons_of_mem _ (ih rest)

section Printing

@[simp] theorem texts_after_printf {x : Served} {text : Option (List Byte)} :
    (x.after (.printf text)).texts = text :: x.texts := rfl

/-- From a buffer that is zero behind `used`, each chunk is printed as it is exactly when it is
as long as `used` and as every chunk before it. -/
theorem serve_texts_iff {answers : List Answer}
    (fits : ∀ c ∈ chunks answers, c.length ≤ bufferSize - 1 ∧ (0 : Byte) ∉ c) :
    ∀ {used : List Byte}, used.length < bufferSize → (0 : Byte) ∉ used →
      ((serve (used ++ List.replicate (bufferSize - used.length) 0) answers).texts =
          (chunks answers).map some ↔
        (∀ c ∈ chunks answers, used.length ≤ c.length) ∧
          (chunks answers).Pairwise fun c d => c.length ≤ d.length) := by
  induction answers with
  | nil =>
    intro used _ _
    exact iff_of_true rfl ⟨by simp [chunks], List.Pairwise.nil⟩
  | cons answer later ih =>
    intro used short clean
    cases answer with
    | eagain => exact iff_of_true rfl ⟨by simp [chunks], List.Pairwise.nil⟩
    | failed => exact ih fits short clean
    | received bytes =>
      by_cases ended : bytes.length = 0
      · simp [serve, chunks, ended, Served.texts, Call.text?]
      · have here : chunks (.received bytes :: later) = bytes :: chunks later := if_neg ended
        rw [here] at fits ⊢
        obtain ⟨size, whole⟩ := fits bytes List.mem_cons_self
        have room : (overlay bytes used).length < bufferSize := by
          rw [overlay_length]
          exact max_lt (lt_of_le_of_lt size (by decide)) short
        have none := zero_not_mem_overlay whole clean
        have next := ih (fun c mem => fits c (List.mem_cons_of_mem _ mem)) room none
        rw [serve, if_neg ended, overlay_append_replicate (le_trans size (Nat.sub_le _ _)),
          cString_append_replicate room none, texts_after_printf, List.map_cons, List.cons.injEq,
          next, Option.some.injEq, overlay_eq_left_iff, overlay_length, List.pairwise_cons]
        simp only [List.forall_mem_cons, max_le_iff, forall_and]
        tauto

end Printing

/-- The worker prints each chunk as it is exactly when no chunk is shorter than one before it. -/
theorem prints_chunks_iff {answers : List Answer}
    (fits : ∀ c ∈ chunks answers, c.length ≤ bufferSize - 1 ∧ (0 : Byte) ∉ c) :
    (worker answers).texts = (chunks answers).map some ↔
      (chunks answers).Pairwise fun c d => c.length ≤ d.length := by
  have from_start := @serve_texts_iff answers fits [] (by decide) List.not_mem_nil
  rw [List.nil_append, List.length_nil, Nat.sub_zero] at from_start
  rw [worker, from_start]
  exact and_iff_right fun c _ => Nat.zero_le _

theorem prints_chunks_iff_growing :
    (worker [.received [97], .failed, .received [98, 99]]).texts =
        [[(97 : Byte)], [98, 99]].map some ↔
      [[(97 : Byte)], [98, 99]].Pairwise fun c d => c.length ≤ d.length :=
  @prints_chunks_iff [.received [97], .failed, .received [98, 99]] (by decide)

/-- "hi" behind "hello" is printed as "hillo". -/
theorem rest_of_hello_printed : ∃ answers,
    (∀ c ∈ chunks answers, c.length ≤ bufferSize - 1 ∧ (0 : Byte) ∉ c) ∧
      (worker answers).texts ≠ (chunks answers).map some :=
  ⟨[.received [104, 101, 108, 108, 111], .received [104, 105]], by decide, by decide⟩

section Leaving

variable {answers later : List Answer} {answer : Answer}

/-- The loop is left at the end of the stream and for `EAGAIN`. -/
theorem serve_left_iff : ∀ {buf : List Byte},
    (serve buf answers).left = true ↔ ∃ a ∈ answers, a.Ends := by
  induction answers with
  | nil => simp [serve]
  | cons answer later ih =>
    intro buf
    cases answer with
    | eagain => exact iff_of_true rfl ⟨.eagain, List.mem_cons_self, trivial⟩
    | failed =>
      rw [serve, ih, List.exists_mem_cons_iff]
      exact (or_iff_right id).symm
    | received bytes =>
      rw [serve, List.exists_mem_cons_iff]
      by_cases ended : bytes.length = 0
      · rw [if_pos ended]
        exact iff_of_true rfl (.inl ended)
      · rw [if_neg ended, Served.after, ih]
        exact (or_iff_right ended).symm

/-- As long as the loop is not left it has neither closed nor armed the socket; then one of the
two is its last call. -/
theorem serve_settled : ∀ {buf : List Byte},
    ((serve buf answers).left = false →
        Call.close ∉ (serve buf answers).calls ∧ Call.resetOnshot ∉ (serve buf answers).calls) ∧
      (serve buf answers).Settled := by
  induction answers with
  | nil => exact fun {buf} => ⟨fun _ => by simp [serve], fun left => by cases left⟩
  | cons answer later ih =>
    intro buf
    cases answer with
    | eagain =>
      exact ⟨fun stays => (by cases stays), fun _ => .inr (by simp [serve])⟩
    | failed => exact ih
    | received bytes =>
      by_cases ended : bytes.length = 0
      · rw [serve, if_pos ended]
        exact ⟨fun stays => (by cases stays), fun _ => .inl (by simp)⟩
      · obtain ⟨inside, settled⟩ := @ih (overlay bytes buf)
        rw [serve, if_neg ended]
        refine ⟨fun stays => ?_, fun left => ?_⟩
        · simpa [Served.after] using inside stays
        · simpa [Served.after] using settled left

/-- A loop that is not left goes on with the later answers. -/
theorem serve_append : ∀ {buf : List Byte}, (serve buf answers).left = false →
    ∃ reached, (serve buf (answers ++ later)).left = (serve reached later).left ∧
      (serve buf (answers ++ later)).calls =
        (serve buf answers).calls ++ (serve reached later).calls := by
  induction answers with
  | nil => exact fun {buf} _ => ⟨buf, rfl, rfl⟩
  | cons answer rest ih =>
    intro buf stays
    cases answer with
    | eagain => cases stays
    | failed => exact ih stays
    | received bytes =>
      by_cases ended : bytes.length = 0
      · rw [serve, if_pos ended] at stays
        cases stays
      · rw [serve, if_neg ended] at stays
        obtain ⟨reached, left, calls⟩ := ih stays
        refine ⟨reached, ?_, ?_⟩
        · rw [List.cons_append, serve, if_neg ended]
          exact left
        · rw [List.cons_append, serve, if_neg ended, serve, if_neg ended]
          exact congrArg (Call.printf _ :: ·) calls

end Leaving

/-- The worker ends exactly when `recv` reports the end of the stream or `EAGAIN` at some time,
whatever it reports otherwise and how often. -/
theorem terminates_iff (answers : Nat → Answer) :
    Terminates answers ↔ ∃ i, (answers i).Ends := by
  constructor
  · rintro ⟨⟨n, left⟩, -⟩
    obtain ⟨a, mem, ends⟩ := serve_left_iff.mp left
    obtain ⟨i, -, rfl⟩ := List.mem_map.mp mem
    exact ⟨i, ends⟩
  · rintro ⟨i, ends⟩
    refine ⟨⟨i + 1, serve_left_iff.mpr ⟨answers i, ?_, ends⟩⟩, fun n => serve_settled.2⟩
    exact List.mem_map_of_mem (List.mem_range.mpr (Nat.lt_succ_self i))

/-- Any other error is met with the next call, for ever. -/
theorem failing_never_terminates : ∃ answers : Nat → Answer,
    (∃ n, ∀ i ≥ n, chunks [answers i] = []) ∧ ¬ Terminates answers := by
  refine ⟨fun _ => .failed, ⟨0, fun _ _ => rfl⟩, fun ends => ?_⟩
  obtain ⟨⟨n, left⟩, -⟩ := ends
  obtain ⟨a, mem, ends⟩ := serve_left_iff.mp left
  obtain ⟨i, -, rfl⟩ := List.mem_map.mp mem
  exact ends

/-! The loop in the system: what a worker of a run has reached, from the answers it got. -/

/-- The answer that a step gives to `recv` of a worker. -/
def recvAnswer? (thread : Nat) : St × Input → Option Answer
  | (s, .worker t _ answer) =>
    if t = thread then
      (s.workers t).bind fun w =>
        match w.stage with
        | .serving _ => some answer
        | .started | .again _ | .closing _ | .finished => none
    else none
  | _ => none

def answersOf (thread : Nat) (steps : List (St × Input)) : List Answer :=
  steps.filterMap (recvAnswer? thread)

/-- Where a worker stands after what its loop has done. -/
def Stage.Reached (x : Served) : Stage → Prop
  | .started => x = ⟨[], false⟩
  | .serving _ => x.left = false
  | .again _ => x.left = true ∧ Call.resetOnshot ∈ x.calls
  | .closing _ => x.left = true ∧ Call.close ∈ x.calls
  | .finished => x.left = true

/-- The worker is behind its loop. -/
def Stage.Behind : Stage → Prop
  | .started | .serving _ => False
  | .again _ | .closing _ | .finished => True

theorem Stage.Reached.left_iff {stage : Stage} {x : Served} (reached : stage.Reached x) :
    x.left = true ↔ stage.Behind := by
  cases stage with
  | started =>
    rw [show x = ⟨[], false⟩ from reached]
    exact iff_of_false nofun id
  | serving arg =>
    rw [show x.left = false from reached]
    exact iff_of_false nofun id
  | again arg => exact iff_of_true reached.1 trivial
  | closing arg => exact iff_of_true reached.1 trivial
  | finished => exact iff_of_true reached trivial

/-- A worker of a run against its loop alone, with the answers that its calls of `recv` got. -/
structure Accounted (w : Worker) (answers : List Answer) : Prop where
  reached : w.stage.Reached (worker answers)
  left : w.stage.Behind ↔ ∃ a ∈ answers, a.Ends
  fits : ∀ bytes ∈ chunks answers, bytes.length ≤ bufferSize - 1

section Running

variable {s t : St} {steps : List (St × Input)} {thread : Nat} {w : Worker}

/-- The main thread leaves the workers alone or creates one. -/
theorem mainStep_workers {connfd : Fd} (run : mainStep s connfd thread = some t) :
    t.workers = s.workers ∨
      ∃ event, t.workers = Function.update s.workers thread (some ⟨event, .started⟩) := by
  unfold mainStep at run
  split at run
  · split_ifs at run <;> exact .inl (Option.some.inj run ▸ rfl)
  · exact .inl (Option.some.inj run ▸ rfl)
  · rename_i event rest ctl
    exact .inr ⟨event, Option.some.inj run ▸ rfl⟩
  · exact .inl (Option.some.inj run ▸ rfl)
  · cases run
  · cases run

/-- Outside its loop a worker does not call `recv`. -/
theorem recvAnswer?_eq_none {stale : Fds} {answer : Answer} (hw : s.workers thread = some w)
    (outside : ∀ arg, w.stage ≠ .serving arg) :
    recvAnswer? thread (s, .worker thread stale answer) = none := by
  simp only [recvAnswer?, if_true, hw, Option.bind_some]
  split
  · rename_i arg stage
    exact absurd stage (outside arg)
  all_goals rfl

/-- The body of the loop with one answer. -/
theorem recvStep_reached {arg : Fds} {answer : Answer} {answers : List Answer}
    (hw : s.workers thread = some w) (here : w.stage = .serving arg)
    (inside : (worker answers).left = false) :
    ∃ stage, (recvStep s thread w arg answer).workers =
        Function.update s.workers thread (some { w with stage }) ∧
      stage.Reached (worker (answers ++ [answer])) := by
  have stays : s.workers =
      Function.update s.workers thread (some { w with stage := .serving arg }) := by
    rw [← here]
    exact (hw ▸ Function.update_eq_self thread s.workers).symm
  obtain ⟨buf, left, calls⟩ := @serve_append answers [answer] _ inside
  cases answer with
  | eagain =>
    refine ⟨.again arg, rfl, left, ?_⟩
    rw [worker, calls]
    exact List.mem_append_right _ List.mem_cons_self
  | failed => exact ⟨.serving arg, stays, left⟩
  | received bytes =>
    rw [serve] at left calls
    rw [recvStep]
    by_cases ended : bytes.length = 0
    · rw [if_pos ended] at left calls
      rw [if_pos ended]
      refine ⟨.closing arg, rfl, left, ?_⟩
      rw [worker, calls]
      exact List.mem_append_right _ List.mem_cons_self
    · rw [if_neg ended] at left
      rw [if_neg ended]
      exact ⟨.serving arg, stays, left⟩

/-- A worker takes one step, with the answer that its `recv` got if it is there. -/
theorem workerStep_reached {stale : Fds} {answer : Answer} {answers : List Answer}
    (hw : s.workers thread = some w) (reached : w.stage.Reached (worker answers))
    (run : workerStep s thread w stale answer = some t) :
    ∃ stage, t.workers = Function.update s.workers thread (some { w with stage }) ∧
      stage.Reached
        (worker (answers ++ (recvAnswer? thread (s, .worker thread stale answer)).toList)) := by
  unfold workerStep at run
  split at run
  · rename_i stage
    obtain rfl := Option.some.inj run
    rw [recvAnswer?_eq_none hw (by simp [stage]), Option.toList_none, List.append_nil]
    rw [stage, Stage.Reached] at reached
    exact ⟨.serving _, rfl, by rw [Stage.Reached, reached]⟩
  · rename_i arg stage
    obtain rfl := Option.some.inj run
    have got : recvAnswer? thread (s, .worker thread stale answer) = some answer := by
      simp [recvAnswer?, hw, stage]
    rw [stage, Stage.Reached] at reached
    rw [got, Option.toList_some]
    exact recvStep_reached hw stage reached
  · rename_i arg stage
    obtain rfl := Option.some.inj run
    rw [recvAnswer?_eq_none hw (by simp [stage]), Option.toList_none, List.append_nil]
    rw [stage] at reached
    exact ⟨.finished, rfl, reached.1⟩
  · rename_i arg stage
    obtain rfl := Option.some.inj run
    rw [recvAnswer?_eq_none hw (by simp [stage]), Option.toList_none, List.append_nil]
    rw [stage] at reached
    exact ⟨.finished, rfl, reached.1⟩
  · cases run

/-- What the answers to a thread's `recv` say about it; there are none before it exists. -/
def Followed (thread : Nat) (steps : List (St × Input)) (s : St) : Prop :=
  (s.workers thread = none → answersOf thread steps = []) ∧
    ∀ w ∈ s.workers thread, w.stage.Reached (worker (answersOf thread steps))

/-- In every run of the system each worker is where its loop has come with its answers. -/
theorem worker_followed (h : machine.Run steps s) : ∀ thread, Followed thread steps s := by
  apply h.invariant (I := fun steps s => ∀ thread, Followed thread steps s)
  · rintro s ⟨listenfd, epollfd, -, -, -, rfl⟩
    exact fun _ => ⟨fun _ => rfl, fun w none => by cases none⟩
  · intro steps s a t _ before lawful run thread
    have answers : answersOf thread (steps ++ [(s, a)]) =
        answersOf thread steps ++ (recvAnswer? thread (s, a)).toList := by
      rw [answersOf, List.filterMap_append, answersOf]
      cases one : recvAnswer? thread (s, a) <;> simp [one]
    have idle : t.workers thread = s.workers thread → recvAnswer? thread (s, a) = none →
        Followed thread (steps ++ [(s, a)]) t := by
      intro same none
      rw [Followed, same, answers, none, Option.toList_none, List.append_nil]
      exact before thread
    cases a with
    | arrives fd bytes => exact idle (Option.some.inj run ▸ rfl) rfl
    | finishes fd => exact idle (Option.some.inj run ▸ rfl) rfl
    | wait batch => exact idle (Option.some.inj run ▸ rfl) rfl
    | waitFailed => exact idle (Option.some.inj run ▸ rfl) rfl
    | main connfd created =>
      rcases mainStep_workers run with same | ⟨event, new⟩
      · exact idle (by rw [same]) rfl
      · by_cases own : thread = created
        · subst own
          have fresh : s.workers thread = none := lawful.2
          have empty : answersOf thread (steps ++ [(s, .main connfd thread)]) = [] := by
            rw [answers, (before thread).1 fresh]
            rfl
          rw [Followed, new, Function.update_self, empty]
          refine ⟨fun none => (by cases none), fun w here => ?_⟩
          obtain rfl := Option.some.inj here
          rfl
        · exact idle (by rw [new, Function.update_of_ne own]) rfl
    | worker other stale answer =>
      obtain ⟨w, hw, run⟩ := Option.bind_eq_some_iff.mp run
      obtain ⟨stage, moved, reached⟩ := workerStep_reached hw ((before other).2 w hw) run
      by_cases own : other = thread
      · subst own
        rw [Followed, moved, Function.update_self, answers]
        refine ⟨fun none => (by cases none), fun v here => ?_⟩
        obtain rfl := Option.some.inj here
        exact reached
      · refine idle ?_ ?_
        · rw [moved, Function.update_of_ne (Ne.symm own)]
        · simp [recvAnswer?, own]

/-- A chunk that a worker of the system gets fits into its buffer. -/
theorem received_fits (h : machine.Run steps s) {bytes : List Byte}
    (got : bytes ∈ chunks (answersOf thread steps)) : bytes.length ≤ bufferSize - 1 := by
  obtain ⟨p, mem, answer⟩ := List.mem_filterMap.mp (mem_of_mem_chunks got)
  obtain ⟨-, lawful, -⟩ := h.step_of_mem p mem
  obtain ⟨s, a⟩ := p
  cases a with
  | worker other stale found =>
    simp only [recvAnswer?] at answer
    split_ifs at answer with own
    obtain ⟨w, hw, answer⟩ := Option.bind_eq_some_iff.mp answer
    have meets : Meets s.kernel w.stage found := lawful w (own ▸ hw)
    split at answer
    · rename_i arg stage
      obtain rfl := Option.some.inj answer
      rw [stage] at meets
      exact meets.1
    all_goals cases answer
  | arrives fd bytes => cases answer
  | finishes fd => cases answer
  | wait batch => cases answer
  | waitFailed => cases answer
  | main connfd created => cases answer

/-- In every run of the server each worker is where its loop has come with its own answers, has
left the loop exactly when one of them was the end of the stream or `EAGAIN`, and got no chunk that
does not fit into its buffer. -/
theorem workers_accounted (h : machine.Run steps s) (hw : w ∈ s.workers thread) :
    Accounted w (answersOf thread steps) where
  reached := (worker_followed h thread).2 w hw
  left := ((worker_followed h thread).2 w hw).left_iff.symm.trans serve_left_iff
  fits _ := received_fits h

end Running

/-- The worker of 5 has got "hello" and "hi", and has armed the socket again. -/
def greeted : St := (machine.replay (boot 3 4)
  [.wait [⟨3, epollIn, 0⟩], .main 5 0, .main (-1) 0, .arrives 5 [104, 101, 108, 108, 111],
    .wait [⟨5, epollIn, 0⟩], .main (-1) 0, .main (-1) 0, .worker 0 ⟨0, 0⟩ .failed,
    .worker 0 ⟨0, 0⟩ (.received [104, 101, 108, 108, 111]), .arrives 5 [104, 105],
    .worker 0 ⟨0, 0⟩ (.received [104, 105]), .worker 0 ⟨0, 0⟩ .eagain]).getD (boot 3 4)

theorem workers_accounted_greeted : ∃ steps, machine.Run steps greeted ∧
    ∃ w ∈ greeted.workers 0, w.stage.Behind ∧ Accounted w (answersOf 0 steps) := by
  have start : machine.Reachable (boot 3 4) :=
    .start ⟨3, 4, by decide, by decide, by decide, rfl⟩
  obtain ⟨steps, run⟩ : machine.Reachable greeted := start.replay_getD _
  have stage : (greeted.workers 0).map Worker.stage = some (.again ⟨4, 5⟩) := by decide +kernel
  obtain ⟨w, hw, again⟩ := Option.map_eq_some_iff.mp stage
  refine ⟨steps, run, w, hw, ?_, workers_accounted run hw⟩
  rw [again]
  trivial

end JiajiaNetwork.OneShot
