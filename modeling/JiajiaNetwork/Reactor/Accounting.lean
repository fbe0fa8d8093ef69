/- Who owns the descriptors that `accept` returned. `acceptconn` forgets the connection that it
   cannot store or configure; every other path hands it on or closes it. -/
import Mathlib.Data.Int.Range
import JiajiaNetwork.Reactor.Dialogue

set_option autoImplicit false
set_option relaxedAutoImplicit false

namespace JiajiaNetwork.Reactor

open Lib

/-- The descriptors of the active entries. -/
def held (s : St) : Set Fd := {fd | ∃ k, Active s k ∧ (s.gEvents.cell k).fd = fd}

/-- Every open connection has an owner. -/
def Owned (s : St) : Prop := ∀ fd ∈ live Event.life s.log, fd ∈ held s

/-- If the step accepts a connection, there is a free entry for it and `fcntl` succeeds. -/
def Stores (s : St) : Input → Prop
  | .turn a => ∀ k, calling s = some (k, .acceptconn) → a.accept ≠ none →
      (∃ i, 0 ≤ i ∧ i < maxEvents ∧ (s.gEvents.cell i).status = 0) ∧ a.fcntl = true
  | _ => True

section Held

variable {s t : St} {k : Int}

theorem held_congr (entries : t.gEvents = s.gEvents) : held t = held s := by
  ext fd
  unfold held
  simp only [Set.mem_ofPred_eq, active_congr entries, entries]

/-- A free entry takes a connection. -/
theorem held_adopt {cfd : Fd} {time : Int} (lower : 0 ≤ k) (upper : k < maxEvents)
    (free : (s.gEvents.cell k).status = 0) : held (s.adopt k cfd time) = insert cfd (held s) := by
  ext fd
  constructor
  · rintro ⟨l, active, same⟩
    by_cases here : l = k
    · subst here
      left
      simpa using same.symm
    · right
      refine ⟨l, (active_put rfl here).mp active, ?_⟩
      rwa [St.adopt_gEvents, CArray.put_cell_of_ne _ _ here] at same
  · intro owned
    rcases Set.mem_insert_iff.mp owned with new | ⟨l, active, same⟩
    · subst new
      exact ⟨k, ⟨lower, by omega, by simp⟩, by simp⟩
    · have other : l ≠ k := by
        rintro rfl
        have on := active.on
        rw [free] at on
        exact absurd on (by decide)
      refine ⟨l, (active_put rfl other).mpr active, ?_⟩
      rwa [St.adopt_gEvents, CArray.put_cell_of_ne _ _ other]

theorem held_release (inv : Inv s) (active : Active s k) :
    held (s.release k) = held s \ {(s.gEvents.cell k).fd} := by
  ext fd
  constructor
  · rintro ⟨l, still, same⟩
    have other : l ≠ k := by
      rintro rfl
      exact absurd still.on (by simp)
    have before : Active s l := (active_put rfl other).mp still
    rw [St.release_gEvents, CArray.put_cell_of_ne _ _ other] at same
    refine ⟨⟨l, before, same⟩, ?_⟩
    intro gone
    exact other (inv.distinct before active (same.trans gone))
  · rintro ⟨⟨l, before, same⟩, kept⟩
    have other : l ≠ k := by
      rintro rfl
      exact kept same.symm
    refine ⟨l, (active_put rfl other).mpr before, ?_⟩
    rwa [St.release_gEvents, CArray.put_cell_of_ne _ _ other]

theorem held_rearm {ev : Myevent} (active : Active s k) (same : ev.fd = (s.gEvents.cell k).fd)
    (on : ev.status = 1) : held (s.rearm k ev) = held s := by
  have now : Active (s.rearm k ev) k := ⟨active.lower, active.upper, by simpa using on⟩
  ext fd
  constructor
  · rintro ⟨l, still, owns⟩
    by_cases here : l = k
    · subst here
      refine ⟨l, active, ?_⟩
      rwa [St.rearm_gEvents, CArray.put_cell_same, same] at owns
    · refine ⟨l, (active_put rfl here).mp still, ?_⟩
      rwa [St.rearm_gEvents, CArray.put_cell_of_ne _ _ here] at owns
  · rintro ⟨l, before, owns⟩
    by_cases here : l = k
    · subst here
      refine ⟨l, now, ?_⟩
      rwa [St.rearm_gEvents, CArray.put_cell_same, same]
    · refine ⟨l, (active_put rfl here).mpr before, ?_⟩
      rwa [St.rearm_gEvents, CArray.put_cell_of_ne _ _ here]

end Held

section Owned

variable {s t : St} {k : Int} {a : Answers} {f : Callback}

theorem owned_congr (sockets : live Event.life t.log = live Event.life s.log)
    (holders : held t = held s) : Owned t ↔ Owned s := by
  unfold Owned
  rw [sockets, holders]

/-- An entry that is released takes its connection with it. -/
theorem owned_release (inv : Inv s) (active : Active s k) :
    Owned (s.release k) ↔ Owned s := by
  have sockets : live Event.life (s.release k).log =
      (live Event.life s.log).erase (s.gEvents.cell k).fd := live_closes rfl
  unfold Owned
  rw [sockets, held_release inv active]
  constructor
  · intro owned fd member
    by_cases same : fd = (s.gEvents.cell k).fd
    · exact ⟨k, active, same.symm⟩
    · exact (owned fd (Finset.mem_erase.mpr ⟨same, member⟩)).1
  · intro owned fd member
    obtain ⟨other, before⟩ := Finset.mem_erase.mp member
    exact ⟨owned fd before, other⟩

theorem owned_adopt (inv : Inv s) {cfd : Fd} {time : Int} (fresh : cfd ∉ s.files) (lower : 0 ≤ k)
    (upper : k < maxEvents) (free : (s.gEvents.cell k).status = 0) :
    Owned (s.adopt k cfd time) ↔ Owned s := by
  have sockets : live Event.life (s.adopt k cfd time).log = insert cfd (live Event.life s.log) :=
    live_opens rfl
  unfold Owned
  rw [sockets, held_adopt lower upper free]
  constructor
  · intro owned fd member
    rcases owned fd (Finset.mem_insert_of_mem member) with new | before
    · subst new
      exact absurd (inv.sockets fd member) fresh
    · exact before
  · intro owned fd member
    rcases Finset.mem_insert.mp member with new | before
    · exact .inl new
    · exact .inr (owned fd before)

/-- A connection that no entry takes has no owner. -/
theorem not_owned_opened (inv : Inv s) {cfd : Fd} (fresh : cfd ∉ s.files) :
    ¬ Owned (s.opened cfd) := by
  intro owned
  have member : cfd ∈ live Event.life (s.opened cfd).log := by
    rw [live_opened]
    exact Finset.mem_insert_self cfd _
  obtain ⟨l, active, same⟩ := owned cfd member
  have before : Active s l := active.congr
  apply fresh
  rw [← same]
  exact inv.opened l before

theorem stores_client (calls : calling s = some (k, f)) (client : f ≠ .acceptconn) :
    Stores s (.turn a) := by
  intro l listening _
  rw [calls] at listening
  exact absurd (Prod.mk.inj (Option.some.inj listening)).2 client

theorem Called.owned_iff (inv : Inv s) (calls : calling s = some (k, f)) (active : Active s k)
    (allowed : Allowed s a)
    (called : Called (s.emit (.invoked k f (s.gEvents.cell k).fd)) k a f t) :
    Owned t ↔ Owned s ∧ Stores s (.turn a) := by
  have told : Inv (s.emit (.invoked k f (s.gEvents.cell k).fd)) := inv.emit rfl
  have logged : Owned (s.emit (.invoked k f (s.gEvents.cell k).fd)) ↔ Owned s := by
    apply owned_congr
    · exact live_quiet (by simp [Event.life])
    · exact held_congr rfl
  cases called with
  | refused answer =>
    rw [logged, and_iff_left]
    exact fun _ _ some => absurd answer some
  | leaked cfd answer lost =>
    have unowned := not_owned_opened told (allowed.accept cfd answer).1
    apply iff_of_false unowned
    rintro ⟨-, stores⟩
    obtain ⟨⟨i, lower, upper, free⟩, nonblocking⟩ := stores k calls (by simp [answer])
    rcases lost with full | failed
    · rcases freeSlot_spec (s.emit (.invoked k .acceptconn (s.gEvents.cell k).fd)) with
        ⟨-, below, -⟩ | ⟨-, taken⟩
      · omega
      · exact taken i lower upper free
    · rw [nonblocking] at failed
      exact absurd failed (by decide)
  | adopted cfd answer lower upper free nonblocking =>
    rw [owned_adopt told (allowed.accept cfd answer).1 lower upper free, logged, and_iff_left]
    exact fun _ _ _ => ⟨⟨_, lower, upper, free⟩, nonblocking⟩
  | released f new outcome =>
    rw [and_iff_left (stores_client calls outcome.not_acceptconn), ← logged,
      owned_release (told.told outcome.quiet) active.congr]
    apply owned_congr
    · exact live_quiet outcome.quiet
    · exact held_congr rfl
  | rearmed f new ev outcome =>
    obtain ⟨same, on, -, -⟩ := outcome.armed
    rw [and_iff_left (stores_client calls outcome.not_acceptconn), ← logged]
    apply owned_congr
    · exact live_quiet outcome.quiet
    · have words : held ((s.emit (.invoked k f (s.gEvents.cell k).fd)).told new) =
          held (s.emit (.invoked k f (s.gEvents.cell k).fd)) := held_congr rfl
      rw [← words]
      exact held_rearm active.congr same on

/-- Steps that leave the table and the sockets alone. -/
theorem owned_kept {i : Input} (sockets : live Event.life t.log = live Event.life s.log)
    (entries : t.gEvents = s.gEvents) (stores : Stores s i) : Owned t ↔ Owned s ∧ Stores s i := by
  rw [and_iff_left stores]
  exact owned_congr sockets (held_congr entries)

theorem stores_idle (idle : calling s = none) : Stores s (.turn a) := by
  intro k listening
  rw [idle] at listening
  exact absurd listening (by simp)

/-- A step loses a connection exactly if it accepts one that it cannot store or configure. -/
theorem Move.owned_iff {i : Input} (inv : Inv s) (move : Move s i t) :
    Owned t ↔ Owned s ∧ Stores s i := by
  cases move with
  | clock now _ => exact owned_kept rfl rfl trivial
  | swept i now _ _ => exact owned_kept rfl rfl trivial
  | passed i now k _ _ _ _ _ _ => exact owned_kept rfl rfl trivial
  | expired i now k _ _ active _ _ _ =>
    have stores : Stores s .check := trivial
    rw [and_iff_left stores, ← owned_release inv active]
    exact owned_congr rfl (held_congr rfl)
  | waited batch _ _ _ => exact owned_kept (live_quiet (by simp [Event.life])) rfl trivial
  | failed _ => exact owned_kept rfl rfl trivial
  | emptied a ctl => exact owned_kept rfl rfl (stores_idle (by simp [calling, testing, ctl]))
  | skipped a r bit next here idle =>
    exact owned_kept rfl rfl (stores_idle (by simp [calling, here, idle]))
  | called a r bit next f m here selects ready held allowed called =>
    rw [← called.owned_iff inv (calling_eq here selects held) ready.toActive allowed]
    exact owned_congr rfl (held_congr rfl)

end Owned

/-- Every accepted descriptor is closed once, or open and owned by one active entry. -/
structure Accounted (s : St) : Prop where
  closed : Always (ClosesLive Event.life) s.log
  owned : ∀ fd ∈ live Event.life s.log, ∃! k, Active s k ∧ (s.gEvents.cell k).fd = fd

/-- The account is kept exactly by the runs whose every accepted connection finds a free entry
and a working `fcntl`. -/
theorem accounted_iff (steps : List (St × Input)) (s : St) (run : machine.Run steps s) :
    Accounted s ↔ ∀ p ∈ steps, Stores p.1 p.2 := by
  have kept : Owned s ↔ ∀ p ∈ steps, Stores p.1 p.2 := by
    apply run.kept_iff
    · rintro s ⟨lfd, files, time, listening, start⟩ fd member
      rw [initial_eq lfd files time listening, Option.some.injEq] at start
      rw [← start] at member
      simp at member
    · intro s a t reach lawful next
      exact (reachable_move reach lawful next).owned_iff (reachable_inv reach).1
  obtain ⟨inv, -⟩ := reachable_inv run.reachable
  rw [← kept]
  constructor
  · intro accounted fd member
    exact (accounted.owned fd member).exists
  · intro owned
    refine ⟨inv.closes, fun fd member => ?_⟩
    obtain ⟨k, active, same⟩ := owned fd member
    refine ⟨k, ⟨active, same⟩, ?_⟩
    rintro l ⟨also, equal⟩
    exact inv.distinct also active (equal.trans same.symm)

theorem accounted_iff_connected : ∃ steps, machine.Run steps connected ∧
    (Accounted connected ↔ ∀ p ∈ steps, Stores p.1 p.2) := by
  obtain ⟨steps, run⟩ := connected_reachable
  exact ⟨steps, run, accounted_iff steps connected run⟩

/-- A connection whose `fcntl` fails is neither stored nor closed. -/
theorem fcntl_failure_leaks : ∃ s, machine.Reachable s ∧ ¬ Accounted s := by
  obtain ⟨s, reach, lost⟩ := boot_reachable.of_replay
    (p := fun s : St => decide (5 ∈ live Event.life s.log ∧
      ∀ k : Int, 0 ≤ k → k ≤ maxEvents →
        ¬ ((s.gEvents.cell k).status = 1 ∧ (s.gEvents.cell k).fd = 5)))
    (pass 1 [⟨4, epollIn, 1024⟩] ++ [.turn ⟨some 5, false, none, none, 0⟩]) (by decide +kernel)
  obtain ⟨member, unowned⟩ := of_decide_eq_true lost
  refine ⟨s, reach, fun accounted => ?_⟩
  obtain ⟨k, ⟨active, same⟩, -⟩ := accounted.owned 5 member
  exact unowned k active.lower active.upper ⟨active.on, same⟩

end JiajiaNetwork.Reactor
