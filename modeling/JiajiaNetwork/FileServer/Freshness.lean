/- Whether `basichttpfile.c` serves the file that the last tick saw. It serves what the first tick
   with the same modification time saw, up to the first zero byte. -/
import JiajiaNetwork.FileServer.Server

set_option autoImplicit false
set_option relaxedAutoImplicit false

namespace JiajiaNetwork.FileServer

open Lib

/-- What `strcpy` leaves of the bytes of a file. -/
def textOf (file : List Byte) : Option (List Byte) := copied file 0

/-- A tick does not fault, and a request is answered with the bytes that the file held at the last
tick. -/
def Serves (s : St) : Input → Prop
  | .request => ∃ tick ∈ s.ticks.getLast?, ∃ t, step s .request = some t ∧
      t.replies = s.replies ++ [tick.value]
  | .tick a => (step s (.tick a)).isSome
  | .rewrite _ _ => True

/-- At a tick: a file with a new modification time fits an `int`, and it has a zero byte or
`malloc` left one behind it. At a request: the file at the last tick has no zero byte and is the
one at the first tick with its modification time, up to a zero byte of that one. -/
def Fresh (s : St) : Input → Prop
  | .request => ∃ tick ∈ s.ticks.getLast?, 0 < tick.version ∧ 0 ∉ tick.value ∧
      ∃ first ∈ firstLike tick s.ticks,
        tick.value = data first.value ∨ tick.value ++ [0] <+: data first.value
  | .tick a => 0 < s.mtime → (∀ tick ∈ s.ticks, tick.version < s.mtime) → a.opens = true →
      Fits (toInt s.file.length) ∧ (0 ∈ data s.file ∨ a.behind = 0)
  | .rewrite _ _ => True

/-- `filedata` is the text of the copy that a cache with these ticks holds. -/
structure Copied (s : St) : Prop where
  times : s.ticks.Pairwise fun x y => x.version ≤ y.version
  current : ∀ tick ∈ s.ticks, tick.version ≤ s.mtime
  began : s.ctl = .serving → s.ticks ≠ []
  lasttime : s.ctl ≠ .exited → s.lasttime = (copyOf 0 s.ticks).elim 0 Sample.version
  filedata : s.ctl ≠ .exited → s.filedata = (copyOf 0 s.ticks).bind fun tick => textOf tick.value
  text : s.ctl ≠ .exited → ∀ tick ∈ copyOf 0 s.ticks, (textOf tick.value).isSome

section Copies

variable {file text : List Byte} {behind : Byte}

theorem copied_isSome : (copied file behind).isSome ↔
    Fits (toInt file.length) ∧ (0 ∈ data file ∨ behind = 0) := by
  unfold copied
  split_ifs with fits
  · rw [cString_isSome, List.mem_append, List.mem_singleton, eq_comm (a := 0)]
    exact (and_iff_right fits).symm
  · exact iff_of_false (by simp) fun fit => fits fit.1

theorem textOf_eq_some_iff : textOf file = some text ↔ Fits (toInt file.length) ∧
    0 ∉ text ∧ (text = data file ∨ text ++ [0] <+: data file) := by
  unfold textOf copied
  split_ifs with fits
  · rw [cString_eq_some_iff, List.prefix_concat_iff, List.append_left_inj]
    exact (and_iff_right fits).symm
  · exact iff_of_false (by simp) fun fit => fits fit.1

/-- The byte behind the data makes no difference where there is a text. -/
theorem textOf_of_copied (copy : copied file behind = some text) : textOf file = some text := by
  have ends := copied_isSome.mp (by rw [copy]; rfl)
  rcases ends.2 with zero | rfl
  · rw [← copy]
    unfold textOf copied
    rw [cString_append, cString_append, if_pos zero, if_pos zero]
  · exact copy

end Copies

section Steps

variable {s t : St} {a : Answers}

/-- A tick that finds the old modification time leaves the copy. -/
theorem Copied.loadFile (copy : Copied s) (going : s.ctl ≠ .exited)
    (run : loadFile s a = some t) : Copied t := by
  have times : (s.ticks ++ [(⟨s.mtime, s.file⟩ : Tick)]).Pairwise
      fun x y => x.version ≤ y.version := by
    apply List.pairwise_append.mpr
    refine ⟨copy.times, List.pairwise_singleton _ _, ?_⟩
    intro x mem y last
    rw [List.mem_singleton.mp last]
    exact copy.current x mem
  have current : ∀ tick ∈ s.ticks ++ [(⟨s.mtime, s.file⟩ : Tick)], tick.version ≤ s.mtime := by
    intro tick mem
    rcases List.mem_append.mp mem with old | last
    · exact copy.current tick old
    · rw [List.mem_singleton.mp last]
  have began : s.ticks ++ [(⟨s.mtime, s.file⟩ : Tick)] ≠ [] := by simp
  have lasttime := copy.lasttime going
  unfold FileServer.loadFile readFile at run
  simp only at run
  split_ifs at run with newer opens
  · obtain ⟨text, copies, rfl⟩ := Option.map_eq_some_iff.mp run
    have copied : copyOf 0 (s.ticks ++ [⟨s.mtime, s.file⟩]) = some ⟨s.mtime, s.file⟩ := by
      rw [copyOf_concat, refresh, if_pos (lasttime ▸ newer)]
    have held : textOf s.file = some text := textOf_of_copied copies
    refine ⟨times, current, fun _ => began, fun _ => ?_, fun _ => ?_, fun _ => ?_⟩
    · show s.mtime = (copyOf 0 (s.ticks ++ [⟨s.mtime, s.file⟩])).elim 0 Sample.version
      rw [copied]
      rfl
    · show some text = (copyOf 0 (s.ticks ++ [⟨s.mtime, s.file⟩])).bind _
      rw [copied, Option.bind_some, held]
    · intro tick mem
      obtain rfl : ⟨s.mtime, s.file⟩ = tick := Option.mem_unique copied mem
      rw [held]
      rfl
  · obtain rfl := Option.some.inj run
    exact ⟨times, current, fun _ => began, fun on => absurd rfl on, fun on => absurd rfl on,
      fun on => absurd rfl on⟩
  · obtain rfl := Option.some.inj run
    have same : copyOf 0 (s.ticks ++ [⟨s.mtime, s.file⟩]) = copyOf 0 s.ticks := by
      rw [copyOf_concat, refresh, if_neg (lasttime ▸ newer)]
    refine ⟨times, current, fun _ => began, fun _ => ?_, fun _ => ?_, fun _ => ?_⟩
    · show s.lasttime = (copyOf 0 (s.ticks ++ [⟨s.mtime, s.file⟩])).elim 0 Sample.version
      rw [same]
      exact lasttime
    · show s.filedata = (copyOf 0 (s.ticks ++ [⟨s.mtime, s.file⟩])).bind _
      rw [same]
      exact copy.filedata going
    · show ∀ tick ∈ copyOf 0 (s.ticks ++ [⟨s.mtime, s.file⟩]), _
      rw [same]
      exact copy.text going

theorem reachable_copied (h : machine.Reachable s) : Copied s := by
  apply h.invariant
  · rintro s ⟨file, mtime, rfl⟩
    exact ⟨List.Pairwise.nil, by simp [boot], by simp [boot], fun _ => rfl, fun _ => rfl,
      by simp [boot, copyOf]⟩
  · intro s a t _ copy lawful run
    cases a with
    | rewrite file mtime =>
      obtain rfl := Option.some.inj run
      exact ⟨copy.times, fun tick mem => Int.le_trans (copy.current tick mem) lawful, copy.began,
        copy.lasttime, copy.filedata, copy.text⟩
    | tick a => exact copy.loadFile lawful run
    | request =>
      obtain ⟨text, -, rfl⟩ := Option.map_eq_some_iff.mp run
      exact ⟨copy.times, copy.current, copy.began, copy.lasttime, copy.filedata, copy.text⟩

end Steps

/-- The file is due to be read when its modification time is positive and greater than before. -/
theorem Copied.newer_iff {s : St} (copy : Copied s) (going : s.ctl ≠ .exited) :
    s.lasttime < s.mtime ↔ 0 < s.mtime ∧ ∀ tick ∈ s.ticks, tick.version < s.mtime := by
  rw [copy.lasttime going]
  cases copied : copyOf 0 s.ticks with
  | none =>
    have old := le_of_copyOf_eq_none copied
    exact ⟨fun newer => ⟨newer, fun tick mem => lt_of_le_of_lt (old tick mem) newer⟩, And.left⟩
  | some y =>
    obtain ⟨positive, first, most⟩ := copyOf_eq_some copied
    constructor
    · intro newer
      exact ⟨Int.lt_trans positive newer, fun tick mem => lt_of_le_of_lt (most tick mem) newer⟩
    · rintro ⟨-, newer⟩
      exact newer y (List.mem_of_find?_eq_some first)

/-- The last tick has the greatest modification time so far. -/
theorem Copied.latest {s : St} {tick : Tick} (copy : Copied s)
    (last : s.ticks.getLast? = some tick) : ∀ z ∈ s.ticks, z.version ≤ tick.version := by
  obtain ⟨before, split⟩ := List.getLast?_eq_some_iff.mp last
  have times := copy.times
  rw [split] at times ⊢
  intro z mem
  rcases List.mem_append.mp mem with old | same
  · exact (List.pairwise_append.mp times).2.2 z old tick (List.mem_singleton_self tick)
  · rw [List.mem_singleton.mp same]

theorem serves_request_iff {s : St} {tick : Tick} (last : s.ticks.getLast? = some tick) :
    Serves s .request ↔ s.filedata = some tick.value := by
  constructor
  · rintro ⟨tick', last', t, run, reply⟩
    obtain rfl := Option.mem_unique last' last
    obtain ⟨text, filedata, rfl⟩ := Option.map_eq_some_iff.mp run
    rw [filedata, List.singleton_inj.mp (List.append_cancel_left reply)]
  · intro filedata
    exact ⟨tick, last, _, by rw [step, genericRequestHandler, filedata]; rfl, rfl⟩

/-- In every reachable state, the next tick does not fault and the next request is answered with
the current file, exactly if the history of the file is one of `Fresh`. -/
theorem serves_current_iff {s : St} {a : Input} (h : machine.Reachable s)
    (lawful : machine.Lawful s a) : Serves s a ↔ Fresh s a := by
  have copy := reachable_copied h
  cases a with
  | rewrite file mtime => exact Iff.rfl
  | tick a =>
    have newer := copy.newer_iff lawful
    unfold Serves Fresh step loadFile readFile
    simp only
    split_ifs with due opens
    · have lately := newer.mp due
      rw [Option.isSome_map, copied_isSome]
      exact ⟨fun fits _ _ _ => fits, fun fits => fits lately.1 lately.2 opens⟩
    · exact iff_of_true rfl fun _ _ open' => absurd open' opens
    · refine iff_of_true rfl fun positive lately _ => ?_
      exact absurd (newer.mpr ⟨positive, lately⟩) due
  | request =>
    have going : s.ctl ≠ .exited := by
      rw [show s.ctl = .serving from lawful]
      decide
    obtain ⟨tick, last⟩ : ∃ tick, s.ticks.getLast? = some tick := by
      exact ⟨_, List.getLast?_eq_some_getLast (copy.began lawful)⟩
    have member : tick ∈ s.ticks := List.mem_of_getLast? last
    have latest := copy.latest last
    have held := copy.filedata going
    rw [copyOf_eq_firstLike latest member] at held
    rw [serves_request_iff last, held]
    constructor
    · intro same
      split_ifs at same with positive
      · obtain ⟨first, found, text⟩ := Option.bind_eq_some_iff.mp same
        obtain ⟨-, clean, starts⟩ := textOf_eq_some_iff.mp text
        exact ⟨tick, last, positive, clean, first, found, starts⟩
      · cases same
    · rintro ⟨tick', last', positive, clean, first, found, starts⟩
      obtain rfl := Option.mem_unique last' last
      have found' : firstLike tick' s.ticks = some first := found
      have copied : first ∈ copyOf 0 s.ticks := by
        rw [copyOf_eq_firstLike latest member, if_pos positive]
        exact found'
      obtain ⟨text, held'⟩ := Option.isSome_iff_exists.mp (copy.text going first copied)
      rw [if_pos positive, found', Option.bind_some]
      exact textOf_eq_some_iff.mpr ⟨(textOf_eq_some_iff.mp held').1, clean, starts⟩

/-- The file holds "hi" since second 1. -/
def hi : St := boot [104, 105] 1

theorem hi_reachable : machine.Reachable hi := .start ⟨_, _, rfl⟩

def loaded : St := (machine.replay hi [.tick ⟨true, 0⟩]).getD hi

theorem serves_current_iff_loaded : Serves loaded .request := by
  refine (serves_current_iff (a := .request) (hi_reachable.replay_getD _) (by decide)).mpr ?_
  exact ⟨⟨1, [104, 105]⟩, by decide, by decide, by decide, ⟨1, [104, 105]⟩, by decide,
    .inl (by decide)⟩

/-- The file becomes "ho" in the same second, and is looked at again. -/
def stale : St :=
  (machine.replay hi [.tick ⟨true, 0⟩, .rewrite [104, 111] 1, .tick ⟨true, 0⟩]).getD hi

/-- The new file is not reloaded; and the byte that `malloc` left behind "hi" may be any other than
zero. -/
theorem not_serves :
    (machine.Reachable stale ∧ machine.Lawful stale .request ∧ ¬Serves stale .request) ∧
    machine.Reachable hi ∧ machine.Lawful hi (.tick ⟨true, 7⟩) ∧ ¬Serves hi (.tick ⟨true, 7⟩) := by
  have ticks : stale.ticks.getLast? = some ⟨1, [104, 111]⟩ := by decide
  have filedata : stale.filedata = some [104, 105] := by decide
  have fault : (step hi (.tick ⟨true, 7⟩)).isSome = false := by decide
  refine ⟨⟨hi_reachable.replay_getD _, by decide, ?_⟩, hi_reachable, by decide,
    by simp [Serves, fault]⟩
  rintro ⟨tick, last, t, run, reply⟩
  obtain rfl := Option.some.inj (ticks.symm.trans last)
  rw [step, genericRequestHandler] at run
  obtain ⟨text, held, rfl⟩ := Option.map_eq_some_iff.mp run
  obtain rfl := Option.some.inj (filedata.symm.trans held)
  exact absurd (List.append_cancel_left reply) (by decide)

end JiajiaNetwork.FileServer
