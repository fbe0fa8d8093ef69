/- The versions that `basichttpfile.c` serves. Each version is loaded once and said to be, and no
   client is served an older one behind a newer one. -/
import JiajiaNetwork.FileServer.Freshness

set_option autoImplicit false
set_option relaxedAutoImplicit false

namespace JiajiaNetwork.FileServer

open Lib

/-- What a load says, with the number of loads before. -/
def loadMessages (load : Tick × Nat) : List Message :=
  [if load.2 ≠ 0 then .reloadingFile else .loadingFile, .size (toInt load.1.value.length)]

/-- What the program says of the loads, and of the one that ended it. -/
def messages (loads : List Tick) (ctl : Control) : List Message :=
  loads.zipIdx.flatMap loadMessages ++
    if ctl = .exited then
      [if loads.length ≠ 0 then .reloadingFile else .loadingFile, .couldNotOpen]
    else []

/-- The ticks at which the file was loaded, and for each reply the one whose text it is. -/
structure Served (s : St) (loads origins : List Tick) : Prop where
  seen : loads.Sublist s.ticks
  newer : loads.Pairwise fun x y => x.version < y.version
  stderr : s.stderr = messages loads s.ctl
  loaded : ∀ x ∈ origins, x ∈ loads
  order : origins.Pairwise fun x y => x.version ≤ y.version
  replies : origins.map (fun x => textOf x.value) = s.replies.map some

/-- In the event loop the last load is the current copy. -/
structure Current (s : St) (loads : List Tick) : Prop where
  copy : copyOf 0 s.ticks = loads.getLast?
  counter : s.counter = loads.length

section Steps

variable {s t : St} {loads origins : List Tick} {a : Answers}

theorem messages_concat (x : Tick) (ctl : Control) (going : ctl ≠ .exited) :
    messages (loads ++ [x]) ctl = messages loads ctl ++ loadMessages (x, loads.length) := by
  simp [messages, going, List.zipIdx_append]

theorem messages_exited (going : s.ctl ≠ .exited) : messages loads .exited =
    messages loads s.ctl ++
      [if loads.length ≠ 0 then .reloadingFile else .loadingFile, .couldNotOpen] := by
  simp [messages, going]

/-- The last load has the greatest version of all. -/
theorem Served.most (served : Served s loads origins) {y : Tick} (last : loads.getLast? = some y) :
    ∀ x ∈ loads, x.version ≤ y.version := by
  obtain ⟨before, split⟩ := List.getLast?_eq_some_iff.mp last
  have newer := served.newer
  rw [split] at newer ⊢
  intro x mem
  rcases List.mem_append.mp mem with old | same
  · exact Int.le_of_lt ((List.pairwise_append.mp newer).2.2 x old y (List.mem_singleton_self y))
  · rw [List.mem_singleton.mp same]

/-- A file is loaded when its modification time is greater than that of every load before. -/
theorem Served.above (served : Served s loads origins) (copy : Copied s) (current : Current s loads)
    (going : s.ctl ≠ .exited) (due : s.lasttime < s.mtime) : ∀ x ∈ loads, x.version < s.mtime := by
  intro x mem
  have lasttime := copy.lasttime going
  rw [current.copy] at lasttime
  cases last : loads.getLast? with
  | none =>
    rw [List.getLast?_eq_none_iff.mp last] at mem
    cases mem
  | some y =>
    rw [last, Option.elim_some] at lasttime
    exact Int.lt_of_le_of_lt (served.most last x mem) (lasttime ▸ due)

theorem Served.loadFile (served : Served s loads origins) (copy : Copied s)
    (current : Current s loads) (going : s.ctl ≠ .exited) (run : loadFile s a = some t) :
    ∃ after, Served t after origins ∧ (t.ctl ≠ .exited → Current t after) := by
  have lasttime := copy.lasttime going
  have grown : loads.Sublist (s.ticks ++ [⟨s.mtime, s.file⟩]) :=
    served.seen.trans (List.sublist_append_left _ _)
  have first : s.counter ≠ 0 ↔ loads.length ≠ 0 := by
    rw [current.counter]
    omega
  unfold FileServer.loadFile readFile at run
  simp only at run
  split_ifs at run with due opens
  · obtain ⟨text, copies, rfl⟩ := Option.map_eq_some_iff.mp run
    have above := served.above copy current going due
    refine ⟨loads ++ [⟨s.mtime, s.file⟩], ⟨?_, ?_, ?_, ?_, served.order, served.replies⟩,
      fun _ => ⟨?_, ?_⟩⟩
    · exact served.seen.append (List.Sublist.refl _)
    · refine List.pairwise_append.mpr ⟨served.newer, List.pairwise_singleton _ _, ?_⟩
      intro x mem y last
      rw [List.mem_singleton.mp last]
      exact above x mem
    · have said : s.stderr = messages loads .serving := by
        have before := served.stderr
        rw [messages, if_neg going] at before
        rw [before, messages, if_neg (by decide)]
      show (s.stderr ++ [if s.counter ≠ 0 then Message.reloadingFile else .loadingFile]) ++
        [.size (toInt s.file.length)] = messages (loads ++ [⟨s.mtime, s.file⟩]) .serving
      rw [messages_concat _ _ (by decide), said, loadMessages, List.append_assoc]
      simp only [first, List.cons_append, List.nil_append]
    · exact fun x mem => List.mem_append_left _ (served.loaded x mem)
    · show copyOf 0 (s.ticks ++ [⟨s.mtime, s.file⟩]) = _
      rw [copyOf_concat, refresh, if_pos (lasttime ▸ due), List.getLast?_concat]
    · show s.counter + 1 = _
      rw [current.counter, List.length_append, List.length_singleton, Int.natCast_add]
      rfl
  · obtain rfl := Option.some.inj run
    refine ⟨loads, ⟨grown, served.newer, ?_, served.loaded, served.order, served.replies⟩,
      fun on => absurd rfl on⟩
    show (s.stderr ++ [if s.counter ≠ 0 then Message.reloadingFile else .loadingFile]) ++
      [.couldNotOpen] = messages loads .exited
    rw [messages_exited going, served.stderr, List.append_assoc]
    simp only [first, List.cons_append, List.nil_append]
  · obtain rfl := Option.some.inj run
    refine ⟨loads, ⟨grown, served.newer, ?_, served.loaded, served.order, served.replies⟩,
      fun _ => ⟨?_, current.counter⟩⟩
    · show s.stderr = messages loads .serving
      have before := served.stderr
      rw [messages, if_neg going] at before
      rw [before, messages, if_neg (by decide)]
    · show copyOf 0 (s.ticks ++ [⟨s.mtime, s.file⟩]) = _
      rw [copyOf_concat, refresh, if_neg (lasttime ▸ due), current.copy]

/-- A request is answered with the text of the last load. -/
theorem Served.request (served : Served s loads origins) (copy : Copied s)
    (current : Current s loads) (going : s.ctl ≠ .exited)
    (run : genericRequestHandler s = some t) :
    ∃ origin, Served t loads (origins ++ [origin]) ∧ Current t loads := by
  obtain ⟨text, held, rfl⟩ := Option.map_eq_some_iff.mp run
  rw [copy.filedata going, current.copy] at held
  obtain ⟨x, last, copied⟩ := Option.bind_eq_some_iff.mp held
  refine ⟨x, ⟨served.seen, served.newer, served.stderr, ?_, ?_, ?_⟩,
    ⟨current.copy, current.counter⟩⟩
  · intro y mem
    rcases List.mem_append.mp mem with old | new
    · exact served.loaded y old
    · rw [List.mem_singleton.mp new]
      exact List.mem_of_getLast? last
  · refine List.pairwise_append.mpr ⟨served.order, List.pairwise_singleton _ _, ?_⟩
    intro y mem z new
    rw [List.mem_singleton.mp new]
    exact served.most last y (served.loaded y mem)
  · rw [List.map_append, served.replies, List.map_singleton, copied, List.map_append]
    rfl

end Steps

/-- In every run the file is loaded at ticks with greater and greater modification times, each load
is reported once and in order, and each reply is the text of one of the loads, never of an earlier
one than the reply before. -/
theorem versions_in_order {s : St} (h : machine.Reachable s) :
    ∃ loads origins, Served s loads origins := by
  have both : ∃ loads origins, Served s loads origins ∧ (s.ctl ≠ .exited → Current s loads) := by
    apply h.invariant
    · rintro s ⟨file, mtime, rfl⟩
      exact ⟨[], [], ⟨List.Sublist.refl _, List.Pairwise.nil, rfl, by simp, List.Pairwise.nil, rfl⟩,
        fun _ => ⟨rfl, rfl⟩⟩
    · rintro s a t reach ⟨loads, origins, served, current⟩ lawful run
      have copy := reachable_copied reach
      cases a with
      | rewrite file mtime =>
        obtain rfl := Option.some.inj run
        exact ⟨loads, origins, ⟨served.seen, served.newer, served.stderr, served.loaded,
          served.order, served.replies⟩, fun on => ⟨(current on).copy, (current on).counter⟩⟩
      | tick a =>
        obtain ⟨after, next⟩ := served.loadFile copy (current lawful) lawful run
        exact ⟨after, origins, next⟩
      | request =>
        have going : s.ctl ≠ .exited := by
          rw [show s.ctl = .serving from lawful]
          decide
        obtain ⟨origin, next, still⟩ := served.request copy (current going) going run
        exact ⟨loads, origins ++ [origin], next, fun _ => still⟩
  obtain ⟨loads, origins, served, -⟩ := both
  exact ⟨loads, origins, served⟩

/-- The file becomes "ho" in second 2; it is asked for before and behind the tick that sees it. -/
def reloaded : St := (machine.replay hi [.tick ⟨true, 0⟩, .request, .rewrite [104, 111] 2, .request,
  .tick ⟨true, 0⟩, .request]).getD hi

theorem versions_in_order_reloaded :
    reloaded.replies = [[104, 105], [104, 105], [104, 111]] ∧
    ∃ loads origins, Served reloaded loads origins :=
  ⟨by decide, versions_in_order (hi_reachable.replay_getD _)⟩

end JiajiaNetwork.FileServer
