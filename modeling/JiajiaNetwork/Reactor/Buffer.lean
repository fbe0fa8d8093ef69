/- The buffers of the slots. A `recv` that fills the whole buffer makes `recvdata` write its
   terminator behind it; exactly without such a `recv` no write leaves a buffer, and every slot
   waiting in `senddata` holds the bytes of its last `recv`. -/
import JiajiaNetwork.Reactor.Dialogue

set_option autoImplicit false
set_option relaxedAutoImplicit false

namespace JiajiaNetwork.Reactor

open Lib

/-- Every message read by the callback leaves room for the terminator. -/
def Fits (_ : Myevent) (f : Callback) (a : Answers) : Prop :=
  f = .recvdata → ∀ bytes ∈ a.recv, bytes.length < buflen

/-- No write left its buffer. -/
def Confined (s : St) : Prop := ∀ k, .spilled k ∉ s.log

section Confined

variable {s t : St} {k : Int} {a : Answers} {f : Callback}

theorem confined_append {new : List Event} (log : t.log = s.log ++ new) :
    Confined t ↔ Confined s ∧ ∀ l, .spilled l ∉ new := by
  unfold Confined
  simp only [log, List.mem_append, not_or, forall_and]

theorem Outcome.confined_iff {ev : Myevent} {new : List Event} {result : Option Myevent}
    (h : Outcome k ev a f new result) : (∀ l, .spilled l ∉ new) ↔ Fits ev f a := by
  cases h with
  | ended ends =>
    apply iff_of_true
    · simp
    · intro _ bytes answer
      rcases ends with failed | closed
      · simp [failed] at answer
      · obtain rfl : [] = bytes := by simpa [closed] using answer
        decide
  | filled bytes answer _ short =>
    apply iff_of_true
    · simp
    · intro _ other read
      obtain rfl : bytes = other := by simpa [answer] using read
      exact short
  | overfilled bytes answer full =>
    apply iff_of_false
    · exact fun none => none k (by simp)
    · intro fits
      exact absurd (fits rfl bytes answer) (by omega)
  | failed len _ _ =>
    apply iff_of_true
    · simp
    · exact fun reading => absurd reading (by decide)
  | sent len _ _ =>
    apply iff_of_true
    · simp
    · exact fun reading => absurd reading (by decide)

theorem Called.confined_iff (called : Called s k a f t) :
    Confined t ↔ Confined s ∧ Fits (s.gEvents.cell k) f a := by
  have listening : Fits (s.gEvents.cell k) .acceptconn a :=
    fun reading => absurd reading (by decide)
  cases called with
  | refused _ => exact (and_iff_left listening).symm
  | leaked cfd _ _ =>
    rw [confined_append (s := s) (t := s.opened cfd) rfl, and_iff_left listening]
    simp
  | adopted cfd _ _ _ _ _ =>
    rw [confined_append (s := s) (t := s.adopt (freeSlot s) cfd a.time) rfl,
      and_iff_left listening]
    simp
  | released f new outcome =>
    rw [← outcome.confined_iff,
      confined_append (s := s) (t := (s.told new).release k) (List.append_assoc _ _ _)]
    simp
  | rearmed f new ev outcome =>
    rw [← outcome.confined_iff, confined_append (s := s) (t := (s.told new).rearm k ev) rfl]

/-- A step writes outside a buffer exactly if it reads a message that fills the buffer. -/
theorem Move.confined_iff {i : Input} (move : Move s i t) :
    Confined t ↔ Confined s ∧ Meets Fits s i := by
  cases move with
  | clock now _ => exact (and_iff_left trivial).symm
  | swept i now _ _ => exact (and_iff_left trivial).symm
  | passed i now k _ _ _ _ _ _ => exact (and_iff_left trivial).symm
  | expired i now k _ _ _ _ _ _ => simp [Confined, Meets]
  | waited batch _ _ _ => simp [Confined, St.emit, Meets]
  | failed _ => exact (and_iff_left trivial).symm
  | emptied a ctl =>
    have idle : calling s = none := by simp [calling, testing, ctl]
    exact (and_iff_left (meets_idle idle)).symm
  | skipped a r bit next here idle =>
    have none : calling s = none := by simp [calling, here, idle]
    exact (and_iff_left (meets_idle none)).symm
  | called a r bit next f m here selects ready held _ called =>
    rw [meets_calling (calling_eq here selects held)]
    have logged : Confined (s.emit (.invoked r.ptr f (s.gEvents.cell r.ptr).fd)) ↔ Confined s := by
      rw [confined_append (s := s) (t := s.emit _) rfl]
      simp
    rw [← logged]
    exact called.confined_iff

end Confined

def Event.reads : Event → Bool
  | .recv _ _ => true
  | _ => false

/-- The entry holds `bytes`, and they are what the last `recv` of the dialogue returned. -/
structure Loaded (ev : Myevent) (seg : List Event) (bytes : List Byte) : Prop where
  last : lastOf Event.reads seg = some (.recv ev.fd (some bytes))
  positive : 0 < bytes.length
  len : ev.len.toNat = bytes.length
  buf : ev.buf.take ev.len.toNat = bytes

/-- What `recvdata` leaves in the entry when the message fits. -/
theorem filled_len {bytes : List Byte} (short : bytes.length < buflen) :
    (BitVec.ofNat 32 bytes.length).toNat = bytes.length := by
  rw [BitVec.toNat_ofNat]
  apply Nat.mod_eq_of_lt
  unfold buflen at short
  omega

theorem filled_buf {bytes buf : List Byte} :
    ((overlay bytes buf).set bytes.length 0).take bytes.length = bytes := by
  rw [List.take_set_of_le le_rfl]
  exact overlay_take

theorem loading : Conversation Fits
    (fun ev seg => ev.callBack = some .senddata → ∃ bytes, Loaded ev seg bytes)
    (fun _ _ => True) where
  opens ev fresh writing := by
    rw [fresh] at writing
    exact absurd writing (by decide)
  calls k ev a f new result seg _ _ fits outcome := by
    refine ⟨fun _ _ _ _ => trivial, ?_⟩
    rintro ev' rfl
    cases outcome with
    | filled bytes answer nonempty short =>
      intro _
      have len := filled_len short
      refine ⟨bytes, ?_, List.length_pos_of_ne_nil nonempty, len, ?_⟩
      · rw [lastOf_append]
        simp [said, concerns, lastOf, Event.reads]
      · show List.take (BitVec.ofNat 32 bytes.length).toNat _ = bytes
        rw [len]
        exact filled_buf
    | overfilled bytes answer full => exact absurd (fits rfl bytes answer) (by omega)
    | sent len _ _ => exact fun writing => absurd writing (by simp)

/-- No write left its buffer, and every entry that waits in `senddata` holds its last message. -/
structure BufferSafe (s : St) : Prop where
  confined : Confined s
  loaded : ∀ k, Active s k → (s.gEvents.cell k).callBack = some .senddata →
    ∃ seg bytes, dialogue (s.gEvents.cell k).fd s.log = some seg ∧
      Loaded (s.gEvents.cell k) seg bytes

theorem reachable_loaded {s : St} (h : (machine.guard (Meets Fits)).Reachable s) {k : Int}
    (active : Active s k) (writing : (s.gEvents.cell k).callBack = some .senddata) :
    ∃ seg bytes, dialogue (s.gEvents.cell k).fd s.log = some seg ∧
      Loaded (s.gEvents.cell k) seg bytes := by
  obtain ⟨inv, -⟩ := reachable_inv h.of_guard
  have client := inv.client_of_callBack writing (by decide)
  obtain ⟨seg, on, holds⟩ := (loading.talks h).clients k active client
  obtain ⟨bytes, loaded⟩ := holds writing
  exact ⟨seg, bytes, on, loaded⟩

/-- A run is safe exactly if no `recv` of it fills a buffer. -/
theorem buffer_safe_iff (steps : List (St × Input)) (s : St) (run : machine.Run steps s) :
    BufferSafe s ↔ ∀ p ∈ steps, Meets Fits p.1 p.2 := by
  have kept : Confined s ↔ ∀ p ∈ steps, Meets Fits p.1 p.2 := by
    apply run.kept_iff
    · rintro s ⟨lfd, files, time, listening, start⟩
      rw [initial_eq lfd files time listening, Option.some.injEq] at start
      rw [← start]
      exact fun k => List.not_mem_nil
    · intro s a t reach lawful next
      exact (reachable_move reach lawful next).confined_iff
  constructor
  · exact fun safe => kept.mp safe.confined
  · intro fits
    have guarded : (machine.guard (Meets Fits)).Reachable s :=
      ⟨steps, Machine.run_guard_iff.mpr ⟨run, fits⟩⟩
    exact ⟨kept.mpr fits, fun k active writing => reachable_loaded guarded active writing⟩

/-- The client on 5 has written "hi", and `senddata` is next. -/
def answering : St := (machine.replay connected
  (pass 2 [⟨5, epollIn, 0⟩] ++ [recvIf [104, 105]])).getD connected

theorem answering_reachable : machine.Reachable answering := connected_reachable.replay_getD _

theorem buffer_safe_iff_answering : ∃ steps, machine.Run steps answering ∧
    (BufferSafe answering ↔ ∀ p ∈ steps, Meets Fits p.1 p.2) := by
  obtain ⟨steps, run⟩ := answering_reachable
  exact ⟨steps, run, buffer_safe_iff steps answering run⟩

/-- A message of 128 bytes: its terminator hits the low byte of `len`. -/
theorem full_buffer_spills : ∃ s, machine.Reachable s ∧ ¬ BufferSafe s := by
  obtain ⟨s, reach, spilled⟩ := connected_reachable.of_replay
    (p := fun s : St => decide (Event.spilled 0 ∈ s.log))
    (pass 2 [⟨5, epollIn, 0⟩] ++ [recvIf (List.replicate 128 97)]) (by decide +kernel)
  exact ⟨s, reach, fun safe => safe.confined 0 (of_decide_eq_true spilled)⟩

end JiajiaNetwork.Reactor
