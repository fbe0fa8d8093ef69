/- The server of `test_poll.c` and a `chat_room_client.c` at the other end of each connection.
   Bytes travel both ways in any portions and with any delay, but TCP keeps their order, and a
   call of `send` takes the whole of a message. -/
import JiajiaNetwork.ChatClient.Pipe
import JiajiaNetwork.ChatRoom.Closing
import JiajiaNetwork.PollChat.Room

set_option autoImplicit false
set_option relaxedAutoImplicit false

namespace JiajiaNetwork.ChatRoom

open Lib
open PollChat (Fd Event Net follow tenureOf sentTo heard roomOf)

/-- `clients fd` is the program at the other end of the connection that is on `fd`. -/
structure Chat where
  net : Net
  clients : Fd → ChatClient.St

inductive ChatInput
  | server (a : PollChat.Input)
  | client (fd : Fd) (a : ChatClient.Input)
  /-- bytes from a client reach the server, or its FIN does -/
  | up (fd : Fd) (bytes : List Byte)
  | upEnds (fd : Fd)
  /-- bytes from the server reach a client -/
  | down (fd : Fd) (bytes : List Byte)

/-- A connection that is accepted comes with a client that has just started. -/
def greet (clients : Fd → ChatClient.St) : Event → Fd → ChatClient.St
  | .accepted fd => Function.update clients fd ChatClient.initial
  | _ => clients

def Chat.clientSteps (c : Chat) (fd : Fd) (a : ChatClient.Input) : Option Chat :=
  (ChatClient.step (c.clients fd) a).map fun x =>
    { c with clients := Function.update c.clients fd x }

def Chat.netSteps (c : Chat) (a : PollChat.NetInput) : Option Chat :=
  (PollChat.netStep .testPoll c.net a).map fun net =>
    ⟨net, (net.server.log.drop c.net.server.log.length).foldl greet c.clients⟩

def chatStep (c : Chat) : ChatInput → Option Chat
  | .server a => c.netSteps (.server a)
  | .client fd a => c.clientSteps fd a
  | .up fd bytes => c.netSteps (.arrives fd bytes)
  | .upEnds fd => c.netSteps (.finishes fd)
  | .down fd bytes => c.clientSteps fd (.arrives bytes)

/-- The steps that a client takes itself. -/
def own : ChatClient.Input → Bool
  | .arrives _ | .finishes => false
  | .poll _ _ | .pollFailed | .turn _ => true

/-- What reaches one end was handed to the other one, in that order. -/
def ChatLawful (c : Chat) : ChatInput → Prop
  | .server a => PollChat.NetLawful c.net (.server a)
  | .client fd a => own a = true ∧ ChatClient.Lawful (c.clients fd) a
  | .up fd bytes => PollChat.NetLawful c.net (.arrives fd bytes) ∧
      (c.net.streams fd).sent ++ bytes <+: (c.clients fd).output
  | .upEnds fd => PollChat.NetLawful c.net (.finishes fd) ∧
      (c.net.streams fd).sent = (c.clients fd).output
  | .down fd bytes => (c.clients fd).stream.sent ++ bytes <+:
      (sentTo fd (tenureOf c.net.server fd)).flatten

def chat : Machine Chat ChatInput where
  Start c := PollChat.Start .testPoll c.net.server ∧ c.net.streams = fun _ => .empty
  Lawful := ChatLawful
  step := chatStep

/-- The server disturbs no pending text, and is told no zero byte for others. -/
def Calm (c : Chat) : ChatInput → Prop
  | .server a => PollChat.Calm c.net.server a
  | _ => True

instance (c : Chat) : (a : ChatInput) → Decidable (ChatLawful c a)
  | .server a => PollChat.netLawfulDecidable c.net (.server a)
  | .client _ _ => inferInstanceAs (Decidable (_ ∧ _))
  | .up fd bytes => @instDecidableAnd _ _ (PollChat.netLawfulDecidable c.net (.arrives fd bytes))
      inferInstance
  | .upEnds fd => @instDecidableAnd _ _ (PollChat.netLawfulDecidable c.net (.finishes fd))
      inferInstance
  | .down _ _ => inferInstanceAs (Decidable (_ <+: _))

instance (c : Chat) : (a : ChatInput) → Decidable (Calm c a)
  | .server a => inferInstanceAs (Decidable (PollChat.Calm c.net.server a))
  | .client _ _ | .up _ _ | .upEnds _ | .down _ _ => isTrue trivial

instance (c : Chat) (a : ChatInput) : Decidable ((chat.guard Calm).Lawful c a) :=
  inferInstanceAs (Decidable (ChatLawful c a ∧ Calm c a))

/-- What the server has read from the client on `fd`. -/
def said (fd : Fd) (seg : List Event) : List (List Byte) :=
  seg.filterMap fun
    | .received f bytes => if f = fd then some bytes else none
    | _ => none

@[simp] theorem said_append (fd : Fd) (seg new : List Event) :
    said fd (seg ++ new) = said fd seg ++ said fd new := List.filterMap_append

/-- The two streams of a connection and the client at its end, against what the server did in
the time `seg` that the connection is on. -/
structure Agrees (fd : Fd) (seg : List Event) (stream : Channel Byte) (x : ChatClient.St) :
    Prop where
  plain : ∀ text ∈ sentTo fd seg, (0 : Byte) ∉ text
  taken : stream.read = (said fd seg).flatten
  carried : stream.sent <+: x.output
  told : x.stream.sent <+: (sentTo fd seg).flatten
  shown : x.printed.flatten = x.stream.read
  balanced : ChatClient.Balanced x

/-- All connections that are on agree with the history `log` of the server. -/
def Linked (log : List Event) (streams : Fd → Channel Byte) (clients : Fd → ChatClient.St) :
    Prop :=
  ∀ fd seg, tenure Event.life fd log = some seg → Agrees fd seg (streams fd) (clients fd)

section Server

variable {fd : Fd} {log seg new : List Event} {streams : Fd → Channel Byte}
  {clients : Fd → ChatClient.St} {e : Event}

theorem agrees_initial : Agrees fd [] .empty ChatClient.initial where
  plain := by simp [sentTo]
  taken := rfl
  carried := List.prefix_refl []
  told := List.prefix_refl []
  shown := rfl
  balanced := rfl

/-- An event that reads nothing from the client. -/
theorem Agrees.grow {stream : Channel Byte} {x : ChatClient.St} (agrees : Agrees fd seg stream x)
    (unread : said fd [e] = []) (clean : ∀ text, e = .sent fd text → (0 : Byte) ∉ text) :
    Agrees fd (seg ++ [e]) stream x where
  plain := by
    intro text member
    rw [PollChat.sentTo_append, List.mem_append] at member
    rcases member with old | new
    · exact agrees.plain text old
    · obtain ⟨e', only, sent⟩ := List.mem_filterMap.mp new
      obtain rfl := List.mem_singleton.mp only
      apply clean text
      cases e' <;> simp_all
  taken := by rw [said_append, unread, List.append_nil, agrees.taken]
  carried := agrees.carried
  told := by
    rw [PollChat.sentTo_append, List.flatten_append]
    exact agrees.told.trans (List.prefix_append _ _)
  shown := agrees.shown
  balanced := agrees.balanced

theorem Agrees.receives {stream : Channel Byte} {x : ChatClient.St} {bytes : List Byte}
    (agrees : Agrees fd seg stream x) (yields : stream.Yields bytes) :
    Agrees fd (seg ++ [.received fd bytes]) (stream.consume bytes.length) x where
  plain := by
    rw [PollChat.sentTo_append]
    simpa [sentTo] using agrees.plain
  taken := by
    rw [yields.read, agrees.taken, said_append]
    simp [said]
  carried := agrees.carried
  told := by
    rw [PollChat.sentTo_append, List.flatten_append]
    exact agrees.told.trans (List.prefix_append _ _)
  shown := agrees.shown
  balanced := agrees.balanced

/-- An event of the server is followed by the streams and the clients. -/
theorem Linked.event (linked : Linked log streams clients)
    (yields : ∀ f bytes, e = .received f bytes → (streams f).Yields bytes)
    (clean : ∀ f text, e = .sent f text → (0 : Byte) ∉ text) :
    Linked (log ++ [e]) (follow streams e) (greet clients e) := by
  intro fd seg on
  have before : Apart Event.life fd e → ∃ old, seg = old ++ [e] ∧
      Agrees fd old (streams fd) (clients fd) := by
    intro apart
    rw [tenure_append_map fun x hx => List.mem_singleton.mp hx ▸ apart] at on
    obtain ⟨old, was, rfl⟩ := Option.map_eq_some_iff.mp on
    exact ⟨old, rfl, linked fd old was⟩
  have quiet : Apart Event.life fd e → follow streams e fd = streams fd →
      greet clients e fd = clients fd → said fd [e] = [] →
      Agrees fd seg (follow streams e fd) (greet clients e fd) := by
    intro apart stream client unread
    obtain ⟨old, rfl, agrees⟩ := before apart
    rw [stream, client]
    exact agrees.grow unread fun text => clean fd text
  cases e with
  | accepted c =>
    by_cases same : fd = c
    · subst same
      rw [tenure_opens (by rfl)] at on
      obtain rfl := Option.some.inj on
      simpa [follow, greet] using agrees_initial
    · exact quiet (PollChat.apart_accepted same) (Function.update_of_ne same _ _)
        (Function.update_of_ne same _ _) rfl
  | closed c =>
    by_cases same : fd = c
    · subst same
      have gone : live Event.life (log ++ [.closed fd]) = (live Event.life log).erase fd :=
        live_closes rfl
      have member := tenure_isSome.mp (Option.isSome_of_eq_some on)
      rw [gone] at member
      exact absurd rfl (Finset.ne_of_mem_erase member)
    · exact quiet (PollChat.apart_closed same) rfl rfl rfl
  | received c bytes =>
    by_cases same : fd = c
    · subst same
      obtain ⟨old, rfl, agrees⟩ := before (apart_of_neither rfl)
      rw [follow, Function.update_self]
      exact agrees.receives (yields fd bytes rfl)
    · exact quiet (apart_of_neither rfl) (Function.update_of_ne same _ _) rfl
        (by simp [said, Ne.symm same])
  | examined _ _ => exact quiet (apart_of_neither rfl) rfl rfl rfl
  | refused _ _ => exact quiet (apart_of_neither rfl) rfl rfl rfl
  | assigned _ _ => exact quiet (apart_of_neither rfl) rfl rfl rfl
  | copied _ _ => exact quiet (apart_of_neither rfl) rfl rfl rfl
  | readPending _ _ => exact quiet (apart_of_neither rfl) rfl rfl rfl
  | sent _ _ => exact quiet (apart_of_neither rfl) rfl rfl rfl
  | reset _ => exact quiet (apart_of_neither rfl) rfl rfl rfl

theorem Linked.events (linked : Linked log streams clients)
    (yields : ∀ pre f bytes post, new = pre ++ .received f bytes :: post →
      (pre.foldl follow streams f).Yields bytes)
    (clean : ∀ f text, .sent f text ∈ new → (0 : Byte) ∉ text) :
    Linked (log ++ new) (new.foldl follow streams) (new.foldl greet clients) := by
  induction new using List.reverseRecOn with
  | nil => simpa using linked
  | append_singleton new e ih =>
    have before := ih
      (fun pre f bytes post split => yields pre f bytes (post ++ [e]) (by simp [split]))
      (fun f text member => clean f text (List.mem_append_left _ member))
    rw [← List.append_assoc, List.foldl_concat, List.foldl_concat]
    apply before.event
    · rintro f bytes rfl
      exact yields new f bytes [] rfl
    · rintro f text rfl
      exact clean f text (by simp)

end Server

/-! What one turn of the server reads and sends. -/

/-- `new` has nothing that was read but, at its head, what the client on slot `i` said, and what
it has sent are texts. -/
structure Spoken (s : PollChat.St) (i : Int) (a : PollChat.Answers) (new : List Event) : Prop where
  reads : ∀ pre f bytes post, new = pre ++ .received f bytes :: post →
    pre = [] ∧ a.recv = .ok bytes ∧ ∃ e r, PollChat.Client s i f e r ∧ PollChat.Reads r
  texts : ∀ f text, .sent f text ∈ new → (0 : Byte) ∉ text

section Turn

variable {s t : PollChat.St} {i : Int} {a : PollChat.Answers} {new : List Event}

theorem Spoken.silent (unread : ∀ f bytes, .received f bytes ∉ new)
    (unsent : ∀ f text, .sent f text ∉ new) : Spoken s i a new where
  reads pre f bytes post split := absurd (by simp [split]) (unread f bytes)
  texts f text member := absurd member (unsent f text)

theorem turn_spoken (inv : PollChat.Inv s) (ledger : PollChat.Ledger s)
    (turn : PollChat.Turn .testPoll s i a t) : ∃ new, t.log = s.log ++ new ∧ Spoken s i a new := by
  cases turn with
  | idle => exact ⟨[], by simp [PollChat.St.next], .silent (by simp) (by simp)⟩
  | refuse c addr _ _ => exact ⟨_, rfl, .silent (by simp) (by simp)⟩
  | enroll c addr _ _ _ => exact ⟨_, rfl, .silent (by simp) (by simp)⟩
  | hangup fd lastFd e r e' r' _ _ _ => exact ⟨_, rfl, .silent (by simp) (by simp)⟩
  | failed fd lastFd e r e' r' errno _ _ _ _ _ => exact ⟨_, rfl, .silent (by simp) (by simp)⟩
  | cleared fd e r _ _ _ => exact ⟨[], by simp [PollChat.St.next], .silent (by simp) (by simp)⟩
  | heard fd e r bytes m client reads answer _ _ run =>
    have ready : PollChat.Inv ((s.filled fd bytes).emit (.received fd bytes)) :=
      (inv.filled fd bytes).emit rfl
    have spread := PollChat.spread_of_broadcast ready client.lower client.upper run
    obtain ⟨assigned, log, only⟩ := spread.log
    refine ⟨.received fd bytes :: assigned, by simp [PollChat.St.next, log, PollChat.St.emit], ?_⟩
    constructor
    case reads =>
      intro pre f more post split
      cases pre with
      | nil =>
        obtain ⟨same, -⟩ := List.cons.inj split
        obtain ⟨rfl, rfl⟩ := Event.received.inj same
        exact ⟨rfl, answer, e, r, client, reads⟩
      | cons x pre =>
        obtain ⟨f', source, assigns⟩ := only (.received f more) (by simp [(List.cons.inj split).2])
        cases assigns
    case texts =>
      intro f text member
      rcases List.mem_cons.mp member with read | later
      · cases read
      · obtain ⟨f', source, assigns⟩ := only _ later
        cases assigns
  | nothing fd e r _ _ _ =>
    exact ⟨[.readPending fd .null], by simp [PollChat.St.next, PollChat.St.emit],
      .silent (by simp) (by simp)⟩
  | flushed fd e r client writes pending =>
    obtain ⟨seg, text, -, string, -⟩ :=
      (ledger i fd e r client).waiting ⟨client.out inv writes.1, pending⟩
    refine ⟨_, rfl, ?_⟩
    rw [string, Option.getD_some]
    have clean : (0 : Byte) ∉ text := by
      cases pointer : (s.users.cell fd).writeBuf with
      | buf owner =>
        rw [pointer, PollChat.St.stringAt] at string
        exact (cString_eq_some_iff.mp string).1
      | null => exact absurd pointer pending
      | stray address => simp [pointer, PollChat.St.stringAt] at string
    constructor
    case reads =>
      intro pre f bytes post split
      have member : Event.received f bytes ∈ pre ++ .received f bytes :: post := by simp
      rw [← split] at member
      simp at member
    case texts =>
      intro f text' member
      obtain ⟨-, rfl⟩ : fd = f ∧ text = text' := by simpa [eq_comm] using member
      exact clean

/-- A step of the server, with what `poll` and `recv` tell it of the streams. -/
theorem Linked.server {n : Net} {clients : Fd → ChatClient.St} {a : PollChat.Input}
    (linked : Linked n.server.log n.streams clients) (inv : PollChat.Inv n.server)
    (ledger : PollChat.Ledger n.server) (told : PollChat.Told n a)
    (move : PollChat.Move .testPoll n.server a t) :
    Linked t.log ((t.log.drop n.server.log.length).foldl follow n.streams)
      ((t.log.drop n.server.log.length).foldl greet clients) := by
  cases move with
  | polled revents t _ polled => simpa [polled.log] using linked
  | left => simpa using linked
  | passed i a _ _ => simpa using linked
  | turn i a fd e r t ctl _ _ _ _ turn =>
    have silent : ∀ f, PollChat.Silent f (.examined fd r) :=
      fun f => ⟨apart_of_neither rfl, rfl, rfl⟩
    obtain ⟨new, log, spoken⟩ := turn_spoken (inv.emit rfl) (ledger.emit silent) turn
    have extended : t.log = n.server.log ++ (.examined fd r :: new) := by
      simp [log, PollChat.St.emit]
    rw [extended, List.drop_left]
    apply linked.events
    · intro pre f bytes post split
      cases pre with
      | nil => cases split
      | cons x pre =>
        obtain ⟨rfl, later⟩ := List.cons.inj split
        obtain ⟨rfl, answer, e', r', client, reads⟩ := spoken.reads pre f bytes post later
        exact told i f e' r' client.congr ctl reads bytes (by rw [answer]; rfl)
    · intro f text member
      rcases List.mem_cons.mp member with examined | later
      · cases examined
      · exact spoken.texts f text later

end Turn

/-! What one step of a client does. -/

section Client

variable {x y : ChatClient.St} {a : ChatClient.Input}

/-- The client prints what it reads if that is text, and it takes nothing back. -/
structure Proceeds (x y : ChatClient.St) : Prop where
  stream : y.stream.sent = x.stream.sent
  output : x.output <+: y.output
  shown : y.printed.flatten = y.stream.read

theorem socketBranch_proceeds {stdin sockfd : ChatClient.Mask} {answers : ChatClient.Answers}
    (clean : (0 : Byte) ∉ x.stream.sent) (shown : x.printed.flatten = x.stream.read)
    (answered : ∀ bytes ∈ answers.recv,
      bytes.length ≤ ChatClient.bufferSize - 1 ∧ x.stream.Yields bytes)
    (run : ChatClient.socketBranch x stdin sockfd answers = some y) : Proceeds x y := by
  unfold ChatClient.socketBranch at run
  split_ifs at run with hangs readable
  · obtain rfl := Option.some.inj run
    exact ⟨rfl, List.prefix_refl _, shown⟩
  · obtain ⟨text, string, same⟩ := Option.bind_eq_some_iff.mp run
    obtain rfl := Option.some.inj same
    cases answer : answers.recv with
    | none =>
      have empty : cString (overlay [] (List.replicate ChatClient.bufferSize 0)) = some [] :=
        ChatClient.printed_text (by simp) (by simp)
      rw [answer, Option.getD_none, empty] at string
      obtain rfl := Option.some.inj string
      exact ⟨rfl, List.prefix_refl _, by simp [shown]⟩
    | some bytes =>
      obtain ⟨short, yields⟩ := answered bytes answer
      have text_clean : (0 : Byte) ∉ bytes := by
        intro zero
        apply clean
        rw [← x.stream.read_append_unread]
        exact List.mem_append_right _ (yields.1.subset zero)
      rw [answer, Option.getD_some, ChatClient.printed_text short text_clean] at string
      obtain rfl := Option.some.inj string
      refine ⟨rfl, List.prefix_refl _, ?_⟩
      show (x.printed ++ [bytes]).flatten = (x.stream.consume bytes.length).read
      rw [yields.read, List.flatten_append, shown]
      simp
  · obtain rfl := Option.some.inj run
    exact ⟨rfl, List.prefix_refl _, shown⟩

theorem own_proceeds (clean : (0 : Byte) ∉ x.stream.sent)
    (shown : x.printed.flatten = x.stream.read) (acts : own a = true)
    (lawful : ChatClient.Lawful x a) (run : ChatClient.step x a = some y) : Proceeds x y := by
  cases a with
  | arrives bytes => cases acts
  | finishes => cases acts
  | poll stdin sockfd =>
    obtain rfl := Option.some.inj run
    exact ⟨rfl, List.prefix_refl _, shown⟩
  | pollFailed =>
    obtain rfl := Option.some.inj run
    exact ⟨rfl, List.prefix_refl _, shown⟩
  | turn answers =>
    have answered : ChatClient.Answered x answers := lawful
    unfold ChatClient.Answered at answered
    cases ctl : x.ctl with
    | socket stdin sockfd =>
      simp only [ctl] at answered
      simp only [ChatClient.step, ctl] at run
      exact socketBranch_proceeds clean shown answered run
    | input stdin =>
      simp only [ChatClient.step, ctl, Option.some.injEq] at run
      subst run
      unfold ChatClient.inputBranch
      split_ifs
      · exact ⟨rfl, List.prefix_refl _, shown⟩
      · exact ⟨rfl, List.prefix_refl _, shown⟩
    | splicing =>
      simp only [ChatClient.step, ctl, Option.some.injEq] at run
      subst run
      exact ⟨rfl, List.prefix_append _ _, shown⟩
    | polling => simp [ChatClient.step, ctl] at run
    | hungUp => simp [ChatClient.step, ctl] at run
    | failed => simp [ChatClient.step, ctl] at run

variable {fd : Fd} {seg : List Event} {stream : Channel Byte}

theorem Agrees.clean (agrees : Agrees fd seg stream x) : (0 : Byte) ∉ x.stream.sent := by
  intro zero
  obtain ⟨text, member, inside⟩ := List.mem_flatten.mp (agrees.told.subset zero)
  exact agrees.plain text member inside

theorem Agrees.own (agrees : Agrees fd seg stream x) (acts : own a = true)
    (lawful : ChatClient.Lawful x a) (run : ChatClient.step x a = some y) :
    Agrees fd seg stream y := by
  have proceeds := own_proceeds agrees.clean agrees.shown acts lawful run
  exact {
    plain := agrees.plain
    taken := agrees.taken
    carried := agrees.carried.trans proceeds.output
    told := proceeds.stream ▸ agrees.told
    shown := proceeds.shown
    balanced := ChatClient.step_balanced agrees.balanced run }

end Client

/-! Whole runs. -/

section Runs

variable {c : Chat} {fd : Fd}

theorem netSteps_eq {d : Chat} {a : PollChat.NetInput} (run : c.netSteps a = some d) :
    ∃ net, PollChat.netStep .testPoll c.net a = some net ∧
      d = ⟨net, (net.server.log.drop c.net.server.log.length).foldl greet c.clients⟩ := by
  obtain ⟨net, step, same⟩ := Option.map_eq_some_iff.mp run
  exact ⟨net, step, same.symm⟩

theorem clientSteps_eq {d : Chat} {a : ChatClient.Input} (run : c.clientSteps fd a = some d) :
    ∃ x, ChatClient.step (c.clients fd) a = some x ∧
      d = { c with clients := Function.update c.clients fd x } := by
  obtain ⟨x, step, same⟩ := Option.map_eq_some_iff.mp run
  exact ⟨x, step, same.symm⟩

/-- The chat is a calm run of the server, which does not notice the other steps. -/
theorem chat_simulates : Machine.Simulates (chat.guard Calm)
    ((PollChat.machine .testPoll).guard PollChat.Calm) (fun c => c.net.server) where
  start c start := start.1
  step c a d _ lawful run := by
    cases a with
    | server a =>
      right
      obtain ⟨net, step, rfl⟩ := netSteps_eq (a := .server a) run
      obtain ⟨s, next, same⟩ := Option.bind_eq_some_iff.mp step
      obtain rfl := Option.some.inj same
      exact ⟨a, ⟨lawful.1.1, lawful.2⟩, next⟩
    | client fd a =>
      obtain ⟨x, -, rfl⟩ := clientSteps_eq (a := a) run
      exact .inl rfl
    | up fd bytes =>
      obtain ⟨net, step, rfl⟩ := netSteps_eq (a := .arrives fd bytes) run
      obtain rfl := Option.some.inj step
      exact .inl rfl
    | upEnds fd =>
      obtain ⟨net, step, rfl⟩ := netSteps_eq (a := .finishes fd) run
      obtain rfl := Option.some.inj step
      exact .inl rfl
    | down fd bytes =>
      obtain ⟨x, -, rfl⟩ := clientSteps_eq (a := .arrives bytes) run
      exact .inl rfl

/-- A change at one connection. -/
theorem Linked.update {log : List Event} {streams : Fd → Channel Byte}
    {clients : Fd → ChatClient.St} (linked : Linked log streams clients) (fd : Fd)
    (stream : Channel Byte) (x : ChatClient.St)
    (agrees : ∀ seg, tenure Event.life fd log = some seg →
      Agrees fd seg (streams fd) (clients fd) → Agrees fd seg stream x) :
    Linked log (Function.update streams fd stream) (Function.update clients fd x) := by
  intro f seg on
  by_cases same : f = fd
  · subst same
    rw [Function.update_self, Function.update_self]
    exact agrees seg on (linked f seg on)
  · rw [Function.update_of_ne same, Function.update_of_ne same]
    exact linked f seg on

theorem reachable_linked (h : (chat.guard Calm).Reachable c) :
    Linked c.net.server.log c.net.streams c.clients := by
  apply h.invariant
  · rintro c ⟨⟨listenfd, files, memory, -, -, start⟩, -⟩ fd seg on
    rw [start] at on
    cases on
  · intro c a d reach linked lawful run
    obtain ⟨lawful, calm⟩ := lawful
    have server := chat_simulates.reachable reach
    cases a with
    | server a =>
      obtain ⟨net, step, rfl⟩ := netSteps_eq (a := .server a) run
      obtain ⟨s, next, same⟩ := Option.bind_eq_some_iff.mp step
      obtain rfl := Option.some.inj same
      have base := server.of_guard
      exact linked.server (PollChat.reachable_inv base) (PollChat.reachable_ledger server) lawful.2
        (PollChat.reachable_move base lawful.1 next)
    | client fd a =>
      obtain ⟨x, step, rfl⟩ := clientSteps_eq (a := a) run
      have changed := linked.update fd (c.net.streams fd) x
        fun seg _ agrees => agrees.own lawful.1 lawful.2 step
      rwa [Function.update_eq_self] at changed
    | up fd bytes =>
      obtain ⟨net, step, rfl⟩ := netSteps_eq (a := .arrives fd bytes) run
      obtain rfl := Option.some.inj step
      have changed := linked.update fd ((c.net.streams fd).send bytes) (c.clients fd)
        fun _ _ agrees => { agrees with carried := lawful.2 }
      rw [Function.update_eq_self] at changed
      simpa using changed
    | upEnds fd =>
      obtain ⟨net, step, rfl⟩ := netSteps_eq (a := .finishes fd) run
      obtain rfl := Option.some.inj step
      have changed := linked.update fd (c.net.streams fd).finish (c.clients fd)
        fun _ _ agrees => { agrees with carried := agrees.carried }
      rw [Function.update_eq_self] at changed
      simpa using changed
    | down fd bytes =>
      obtain ⟨x, step, rfl⟩ := clientSteps_eq (a := .arrives bytes) run
      obtain rfl := Option.some.inj step
      have told : ∀ seg, tenure Event.life fd c.net.server.log = some seg →
          (c.clients fd).stream.sent ++ bytes <+: (sentTo fd seg).flatten := by
        intro seg on
        have same : tenureOf c.net.server fd = seg := by
          rw [tenureOf, on, Option.getD_some]
        exact same ▸ lawful
      have changed := linked.update fd (c.net.streams fd)
        { c.clients fd with stream := (c.clients fd).stream.send bytes }
        fun seg on agrees => { agrees with told := told seg on }
      rwa [Function.update_eq_self] at changed

theorem reachable_agrees (h : (chat.guard Calm).Reachable c)
    (member : fd ∈ live Event.life c.net.server.log) :
    Agrees fd (tenureOf c.net.server fd) (c.net.streams fd) (c.clients fd) :=
  reachable_linked h fd _ (PollChat.tenureOf_member member)

end Runs

/-- What the client on `fd` has printed, in the order of what the server heard from the others,
and what the server has heard from it, in the order of what was typed. -/
structure InOrder (c : Chat) (fd : Fd) : Prop where
  printed : (c.clients fd).printed.flatten <+: (heard fd (tenureOf c.net.server fd)).flatten
  taken : (said fd (tenureOf c.net.server fd)).flatten <+: (c.clients fd).typed

/-- Nothing is under way on the connection of `fd`: no text waits in the server, all that was sent
has arrived and was read, and the pipe of the client is empty. -/
structure Drained (c : Chat) (fd : Fd) : Prop where
  served : (roomOf c.net.server).mailbox fd = []
  delivered : (c.clients fd).stream.sent = (sentTo fd (tenureOf c.net.server fd)).flatten
  printed : (c.clients fd).stream.unread = []
  piped : (c.clients fd).pipe = []
  carried : (c.net.streams fd).sent = (c.clients fd).output
  read : (c.net.streams fd).unread = []

section Results

variable {c : Chat} {fd : Fd}

theorem Agrees.typed {seg : List Event} {stream : Channel Byte} {x : ChatClient.St}
    (agrees : Agrees fd seg stream x) : (said fd seg).flatten <+: x.typed := by
  have output : x.output <+: x.typed := ⟨x.pipe, agrees.balanced⟩
  rw [← agrees.taken]
  exact (stream.order.trans agrees.carried).trans output

/-- In a calm run the server has sent to a client a prefix of what the client has heard. -/
theorem reachable_delivers (h : (chat.guard Calm).Reachable c) :
    PollChat.Delivers c.net.server :=
  have server := chat_simulates.reachable h
  (PollChat.reachable_ledger server).delivers (PollChat.reachable_inv server.of_guard)

theorem Drained.heard_eq (drained : Drained c fd) (h : (chat.guard Calm).Reachable c)
    (member : fd ∈ live Event.life c.net.server.log) :
    (c.clients fd).printed.flatten = (heard fd (tenureOf c.net.server fd)).flatten := by
  have agrees := reachable_agrees h member
  have order := reachable_delivers h fd _ (PollChat.tenureOf_member member)
  have all : sentTo fd (tenureOf c.net.server fd) = heard fd (tenureOf c.net.server fd) := by
    obtain ⟨rest, split⟩ := order
    have none : (heard fd (tenureOf c.net.server fd)).drop
        (sentTo fd (tenureOf c.net.server fd)).length = [] := drained.served
    rw [← split, List.drop_left] at none
    rw [← split, none, List.append_nil]
  have whole := (c.clients fd).stream.read_append_unread
  rw [drained.printed, List.append_nil] at whole
  rw [agrees.shown, whole, drained.delivered, all]

theorem Drained.typed_eq (drained : Drained c fd) (h : (chat.guard Calm).Reachable c)
    (member : fd ∈ live Event.life c.net.server.log) :
    (said fd (tenureOf c.net.server fd)).flatten = (c.clients fd).typed := by
  have agrees := reachable_agrees h member
  have balance : (c.clients fd).output ++ (c.clients fd).pipe = (c.clients fd).typed :=
    agrees.balanced
  have whole := (c.net.streams fd).read_append_unread
  rw [drained.read, List.append_nil] at whole
  rw [drained.piped, List.append_nil] at balance
  rw [← agrees.taken, whole, drained.carried, balance]

/-- What one client says is among what another hears, in the same order. -/
theorem said_sublist_heard {f g : Fd} (other : g ≠ f) (seg : List Event) :
    (said g seg).Sublist (heard f seg) := by
  induction seg with
  | nil => exact List.Sublist.refl []
  | cons e seg ih =>
    cases e with
    | received x bytes =>
      by_cases same : x = g
      · subst same
        simpa [said, heard, other] using ih
      · by_cases own : x = f
        · simpa [said, heard, same, own, Ne.symm other] using ih
        · simpa [said, heard, same, own] using ih.trans (List.sublist_cons_self bytes _)
    | examined _ _ => exact ih
    | accepted _ => exact ih
    | refused _ _ => exact ih
    | closed _ => exact ih
    | assigned _ _ => exact ih
    | copied _ _ => exact ih
    | readPending _ _ => exact ih
    | sent _ _ => exact ih
    | reset _ => exact ih

theorem heard_suffix {seg all : List Event} (h : seg <:+ all) :
    (heard fd seg).Sublist (heard fd all) :=
  h.sublist.filterMap _

end Results

/-- In calm runs a client prints, byte by byte, the beginning of what the others have said to it
since it joined, and the server has heard the beginning of what was typed at it; both are all
there is when nothing is under way on its connection. -/
theorem chat_in_order (c : Chat) (h : (chat.guard Calm).Reachable c) (fd : Fd)
    (member : fd ∈ live Event.life c.net.server.log) :
    InOrder c fd ∧ (Drained c fd →
      (c.clients fd).printed.flatten = (heard fd (tenureOf c.net.server fd)).flatten ∧
      (said fd (tenureOf c.net.server fd)).flatten = (c.clients fd).typed) := by
  have agrees := reachable_agrees h member
  have order := reachable_delivers h fd _ (PollChat.tenureOf_member member)
  refine ⟨⟨?_, agrees.typed⟩, fun drained =>
    ⟨drained.heard_eq h member, drained.typed_eq h member⟩⟩
  rw [agrees.shown]
  exact ((c.clients fd).stream.order.trans agrees.told).trans order.flatten

/-- Once nothing is under way, a client has printed all that was typed at any client that joined
after it, message by message and in order, whatever others said in between. -/
theorem typed_is_printed (c : Chat) (h : (chat.guard Calm).Reachable c) (f g : Fd) (other : g ≠ f)
    (member : f ∈ live Event.life c.net.server.log)
    (joined : g ∈ live Event.life c.net.server.log)
    (later : tenureOf c.net.server g <:+ tenureOf c.net.server f)
    (hears : Drained c f) (speaks : Drained c g) :
    (c.clients g).typed = (said g (tenureOf c.net.server g)).flatten ∧
      (c.clients f).printed.flatten = (heard f (tenureOf c.net.server f)).flatten ∧
      (said g (tenureOf c.net.server g)).Sublist (heard f (tenureOf c.net.server f)) :=
  ⟨(speaks.typed_eq h joined).symm, hears.heard_eq h member,
    (said_sublist_heard other _).trans (heard_suffix later)⟩

/-! Clients on 5 and 6 join; "hi" is typed at the one on 6 and printed at the one on 5. -/

def typesHi : List ChatInput :=
  [.client 6 (.poll ChatClient.pollIn 0), .client 6 (.turn ⟨none, none, none⟩),
    .client 6 (.turn ⟨none, some [104, 105], none⟩), .client 6 (.turn ⟨none, none, some 2⟩),
    .up 6 [104, 105]]

def passesHi : List PollChat.Input :=
  [PollChat.reports [0, 0, PollChat.pollIn], PollChat.idleTurn, PollChat.idleTurn,
    PollChat.recvTurn [104, 105], PollChat.idleTurn, PollChat.reports [0, PollChat.pollOut, 0],
    PollChat.idleTurn, PollChat.idleTurn]

def printsHi : List ChatInput :=
  [.down 5 [104, 105], .client 5 (.poll 0 ChatClient.pollIn),
    .client 5 (.turn ⟨some [104, 105], none, none⟩)]

def bootChat : Chat := ⟨bootNet .testPoll, fun _ => ChatClient.initial⟩

def greeted : Chat := ((chat.guard Calm).replay bootChat
  (PollChat.joins.map .server ++ typesHi ++ passesHi.map .server ++ printsHi)).getD bootChat

theorem greeted_reachable : (chat.guard Calm).Reachable greeted := by
  have start : (chat.guard Calm).Reachable bootChat := .start (bootNet_start .testPoll)
  exact start.replay_getD _

theorem greeted_drained : Drained greeted 5 ∧ Drained greeted 6 :=
  ⟨⟨by decide +kernel, by decide +kernel, by decide +kernel, by decide +kernel, by decide +kernel,
      by decide +kernel⟩,
    ⟨by decide +kernel, by decide +kernel, by decide +kernel, by decide +kernel, by decide +kernel,
      by decide +kernel⟩⟩

theorem chat_in_order_greeted :
    (greeted.clients 5).printed.flatten = [104, 105] ∧ InOrder greeted 5 :=
  ⟨by decide +kernel, (chat_in_order greeted greeted_reachable 5 (by decide +kernel)).1⟩

theorem typed_is_printed_greeted : (greeted.clients 6).typed = [104, 105] ∧
    (said 6 (tenureOf greeted.net.server 6)).Sublist
      (heard 5 (tenureOf greeted.net.server 5)) := by
  obtain ⟨-, -, sublist⟩ := typed_is_printed greeted greeted_reachable 5 6 (by decide)
    (by decide +kernel) (by decide +kernel) (by decide +kernel) greeted_drained.1 greeted_drained.2
  exact ⟨by decide +kernel, sublist⟩

end JiajiaNetwork.ChatRoom
