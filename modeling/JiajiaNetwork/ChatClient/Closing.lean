/- The chat client when the server closes: as long as no call of `poll` finds the close together
   with unread bytes, everything that the server sent is read and printed before the loop ends. -/
import JiajiaNetwork.ChatClient.Client

set_option autoImplicit false
set_option relaxedAutoImplicit false

namespace JiajiaNetwork.ChatClient

open Lib

/-- No call of `poll` finds the close of the server together with unread bytes, and what the
server sends can be printed as text. -/
def Separate (s : St) : Input → Prop
  | .poll _ _ => s.stream.finished = true → s.stream.unread = []
  | .arrives bytes => (0 : Byte) ∉ bytes
  | _ => True

instance (s : St) : (a : Input) → Decidable (Separate s a)
  | .poll _ _ => inferInstanceAs (Decidable (_ → _))
  | .arrives bytes => inferInstanceAs (Decidable ((0 : Byte) ∉ bytes))
  | .finishes | .pollFailed | .turn _ => isTrue trivial

instance (s : St) (a : Input) : Decidable ((machine.guard Separate).Lawful s a) :=
  inferInstanceAs (Decidable (Lawful s a ∧ Separate s a))

/-- Everything read was printed, and the loop is left for a close with nothing unread. -/
structure Kept (s : St) : Prop where
  plain : (0 : Byte) ∉ s.stream.sent
  shown : s.printed.flatten = s.stream.read
  hangs : ∀ stdin sockfd, s.ctl = .socket stdin sockfd → has sockfd pollRdhup →
    s.stream.Exhausted
  left : s.ctl = .hungUp → s.stream.Exhausted

theorem not_exhausted {x : Channel Byte} (going : x.finished = false) : ¬ x.Exhausted := by
  intro exhausted
  rw [exhausted.finished] at going
  exact absurd going (by decide)

theorem Kept.arrives {s : St} (kept : Kept s) {bytes : List Byte}
    (going : s.stream.finished = false) (clean : (0 : Byte) ∉ bytes) :
    Kept { s with stream := s.stream.send bytes } where
  plain := by
    rw [Channel.send_sent, List.mem_append, not_or]
    exact ⟨kept.plain, clean⟩
  shown := kept.shown
  hangs stdin sockfd ctl hangs := absurd (kept.hangs stdin sockfd ctl hangs) (not_exhausted going)
  left ctl := absurd (kept.left ctl) (not_exhausted going)

theorem Kept.finishes {s : St} (kept : Kept s) (going : s.stream.finished = false) :
    Kept { s with stream := s.stream.finish } where
  plain := kept.plain
  shown := kept.shown
  hangs stdin sockfd ctl hangs := absurd (kept.hangs stdin sockfd ctl hangs) (not_exhausted going)
  left ctl := absurd (kept.left ctl) (not_exhausted going)

/-- A message is read and printed. -/
theorem Kept.reads {s : St} (kept : Kept s) (stdin : Mask) {bytes : List Byte}
    (next : (s.stream.consume bytes.length).read = s.stream.read ++ bytes) :
    Kept { s with
      ctl := .input stdin
      stream := s.stream.consume bytes.length
      printed := s.printed ++ [bytes] } where
  plain := kept.plain
  shown := by
    show (s.printed ++ [bytes]).flatten = (s.stream.consume bytes.length).read
    rw [next, List.flatten_append, kept.shown]
    simp
  hangs _ _ ctl := absurd ctl (by simp)
  left ctl := absurd ctl (by simp)

/-- The other steps leave the stream and the output alone. -/
theorem Kept.moves {s t : St} (kept : Kept s) (stream : t.stream = s.stream)
    (printed : t.printed = s.printed) (waiting : ∀ stdin sockfd, t.ctl ≠ .socket stdin sockfd)
    (staying : t.ctl ≠ .hungUp) : Kept t where
  plain := stream ▸ kept.plain
  shown := by rw [stream, printed, kept.shown]
  hangs stdin sockfd ctl := absurd ctl (waiting stdin sockfd)
  left ctl := absurd ctl staying

/-- The text that is printed for a message is the message. -/
theorem printed_text {bytes : List Byte} (short : bytes.length ≤ bufferSize - 1)
    (clean : (0 : Byte) ∉ bytes) :
    cString (overlay bytes (List.replicate bufferSize 0)) = some bytes := by
  apply cString_overlay_replicate
  · unfold bufferSize at short ⊢
    omega
  · exact clean

theorem Kept.socketBranch {s t : St} (kept : Kept s) {stdin sockfd : Mask} {a : Answers}
    (ctl : s.ctl = .socket stdin sockfd)
    (answered : ∀ bytes ∈ a.recv, bytes.length ≤ bufferSize - 1 ∧ s.stream.Yields bytes)
    (run : socketBranch s stdin sockfd a = some t) : Kept t := by
  unfold ChatClient.socketBranch at run
  split_ifs at run with hangs readable
  · obtain rfl := Option.some.inj run
    exact ⟨kept.plain, kept.shown, fun _ _ other => absurd other (by simp),
      fun _ => kept.hangs stdin sockfd ctl hangs⟩
  · cases answer : a.recv with
    | none =>
      have text : cString (overlay [] (List.replicate bufferSize 0)) = some [] :=
        printed_text (by simp) (by simp)
      simp only [answer, Option.getD_none, text, Option.bind_eq_bind, Option.bind_some,
        Option.some.injEq] at run
      subst run
      exact kept.reads stdin (by simp)
    | some bytes =>
      obtain ⟨short, yields⟩ := answered bytes answer
      have clean : (0 : Byte) ∉ bytes := by
        intro zero
        apply kept.plain
        rw [← s.stream.read_append_unread]
        exact List.mem_append_right _ (yields.1.subset zero)
      simp only [answer, Option.getD_some, printed_text short clean, Option.bind_eq_bind,
        Option.bind_some, Option.some.injEq] at run
      subst run
      exact kept.reads stdin yields.read
  · obtain rfl := Option.some.inj run
    exact kept.moves rfl rfl (by simp) (by simp)

theorem Kept.turn {s t : St} (kept : Kept s) {a : Answers} (answered : Answered s a)
    (run : step s (.turn a) = some t) : Kept t := by
  unfold Answered at answered
  cases ctl : s.ctl with
  | socket stdin sockfd =>
    simp only [ctl] at answered
    simp only [step, ctl] at run
    exact kept.socketBranch ctl answered run
  | input stdin =>
    simp only [step, ctl, Option.some.injEq] at run
    subst run
    unfold inputBranch
    split_ifs with readable
    · exact kept.moves rfl rfl (by simp) (by simp)
    · exact kept.moves rfl rfl (by simp) (by simp)
  | splicing =>
    simp only [step, ctl, Option.some.injEq] at run
    subst run
    exact kept.moves rfl rfl (by simp [spliceOut]) (by simp [spliceOut])
  | polling => simp [step, ctl] at run
  | hungUp => simp [step, ctl] at run
  | failed => simp [step, ctl] at run

theorem reachable_kept {s : St} (h : (machine.guard Separate).Reachable s) : Kept s := by
  apply h.invariant
  · rintro s rfl
    exact ⟨by simp [initial, Channel.empty], rfl, fun _ _ ctl => absurd ctl (by simp [initial]),
      fun ctl => absurd ctl (by simp [initial])⟩
  · intro s a t _ kept lawful run
    obtain ⟨promised, separate⟩ := lawful
    cases a with
    | arrives bytes =>
      obtain rfl := Option.some.inj run
      exact kept.arrives promised separate
    | finishes =>
      obtain rfl := Option.some.inj run
      exact kept.finishes promised
    | poll stdin sockfd =>
      obtain rfl := Option.some.inj run
      refine ⟨kept.plain, kept.shown, fun stdin' sockfd' ctl hangs => ?_, fun ctl => ?_⟩
      · obtain ⟨rfl, rfl⟩ := Control.socket.inj ctl
        have finished := promised.2.hangup hangs
        exact ⟨finished, separate finished⟩
      · exact absurd ctl (by simp)
    | pollFailed =>
      obtain rfl := Option.some.inj run
      exact kept.moves rfl rfl (by simp) (by simp)
    | turn a => exact kept.turn promised run

/-- The client has read and printed all that the server sent when it leaves for its close. -/
theorem client_drains {s : St} (h : (machine.guard Separate).Reachable s)
    (left : s.ctl = .hungUp) :
    s.stream.read = s.stream.sent ∧ s.printed.flatten = s.stream.sent := by
  have kept := reachable_kept h
  have all := (kept.left left).read_eq_sent
  exact ⟨all, kept.shown.trans all⟩

end JiajiaNetwork.ChatClient
