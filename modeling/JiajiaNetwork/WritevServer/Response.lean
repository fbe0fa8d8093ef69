/- What the client of `test_writev.c` gets. A file that is read and written in one piece arrives as
   it is; a short `read` leaves zeros in its place, a short `writev` cuts it off, and each rejected
   file ends in a `sprintf` that takes its format from in front of the buffer. -/
import JiajiaNetwork.WritevServer.Server

set_option autoImplicit false
set_option relaxedAutoImplicit false

namespace JiajiaNetwork.WritevServer

open Lib

/-- Status line, length and empty line. -/
def header (size : Nat) : List Byte :=
  literal "HTTP/1.1 200 ok\r\n" ++ (literal "Content-Length:" ++ decimal size ++ literal "\r\n") ++
    literal "\r\n"

/-- The response that carries a file. -/
def found (contents : List Byte) : List Byte := header contents.length ++ contents

/-- The response without one. -/
def failed : List Byte := literal "HTTP/1.1 500 Internal server error\r\n" ++ literal "\r\n"

/-- The client gets one of the two responses; and `file_buf` is set behind the tests of the file,
since every path from there on deletes it. -/
structure WellServed (file : File) (a : Answers) : Prop where
  complete : ∃ t, serve file a = some t ∧ (t.sent = found file.contents ∨ t.sent = failed)
  owned : ∀ s, checkFile (boot a.errno) file a = some s → s.fileBuf.isSome

/-- The tests pass and `read` returns `bytes`. -/
structure Loads (file : File) (a : Answers) (bytes : List Byte) : Prop where
  stat : a.stat = .ok ()
  regular : file.mode &&& sIfmt ≠ sIfdir
  readable : has file.mode sIroth
  allocates : file.size + 1 < 2 ^ 63 ∧ a.allocates = true
  read : readBytes file a = .ok bytes

/-- The file is read, up to zeros at its end, and written as a whole. -/
structure Whole (file : File) (a : Answers) : Prop where
  stat : a.stat = .ok ()
  regular : file.mode &&& sIfmt ≠ sIfdir
  readable : has file.mode sIroth
  allocates : file.size + 1 < 2 ^ 63 ∧ a.allocates = true
  opens : a.opens = true
  read : ∃ n, a.read = .ok n ∧ ∀ b ∈ file.contents.drop n, b = 0
  writev : ∃ n ∈ a.writev, (found file.contents).length ≤ n

section Assembly

variable {s : St} {file : File} {a : Answers} {text bytes : List Byte}

/-- `header_buf` holds `text`, and `len` is its length. -/
structure Assembled (s : St) (text : List Byte) : Prop where
  holds : s.headerBuf.textAt 0 = some text
  len : s.len = text.length

theorem assembled_boot {errno : Int} : Assembled (boot errno) [] :=
  ⟨CArray.textAt_cleared (by decide), rfl⟩

theorem Assembled.snprintf (h : Assembled s text) (format : String) (args : List Arg)
    (new : List Byte) (expands : expand (literal format) args = some new) (clean : (0 : Byte) ∉ new)
    (room : text.length + new.length < 1023) : ∃ t : St,
      s.snprintf format args = some ((new.length : Int), t) ∧ t.fileBuf = s.fileBuf ∧
        Assembled (t.advance new.length) (text ++ new) := by
  have size : (new.length : Int) < buffSize - 1 - text.length := by
    unfold buffSize
    omega
  obtain ⟨headerBuf, prints, goes⟩ := snprintf_append h.holds expands clean size
    (by unfold buffSize; omega) (by unfold buffSize; omega)
  refine ⟨{ s with headerBuf }, ?_, rfl, goes, ?_⟩
  · unfold St.snprintf
    rw [h.len, prints]
    rfl
  · show s.len + new.length = (text ++ new).length
    rw [h.len, List.length_append]
    omega

/-- The three calls of `snprintf` write the header, which fits. -/
theorem writeFile_eq (cleared : Assembled s []) (held : s.fileBuf = some bytes) :
    ∃ t, writeFile s file a = some t ∧ t.fileBuf = some bytes ∧
      t.sent = (header file.size ++ bytes.take file.size).take (a.writev.getD 0) := by
  have digits := decimal_length_le file.size_lt
  have status : (literal "HTTP/1.1 200 ok\r\n").length = 17 := by decide
  have name : (literal "Content-Length:").length = 15 := by decide
  have line : (literal "\r\n").length = 2 := by decide
  have clean : (0 : Byte) ∉ literal "Content-Length:" ++ decimal file.size ++ literal "\r\n" := by
    simp only [List.mem_append, not_or]
    exact ⟨⟨by decide, zero_not_mem_decimal⟩, by decide⟩
  obtain ⟨first, prints, kept, one⟩ := cleared.snprintf "%s %s\r\n"
    [.s (literal "HTTP/1.1"), .s (statusLine 0)] (literal "HTTP/1.1 200 ok\r\n")
    (by decide) (by decide) (by decide)
  obtain ⟨second, prints', kept', two⟩ := one.snprintf "Content-Length:%ld\r\n" [.ld file.size]
    (literal "Content-Length:" ++ decimal file.size ++ literal "\r\n")
    (by rw [List.append_assoc]; rfl) clean
    (by simp only [List.length_append, List.length_nil]; unfold File.size; omega)
  obtain ⟨third, prints'', kept'', three⟩ := two.snprintf "%s" [.s (literal "\r\n")]
    (literal "\r\n") (by decide) (by decide)
    (by simp only [List.length_append, List.length_nil]; unfold File.size; omega)
  have buf : third.fileBuf = some bytes := kept''.trans (kept'.trans (kept.trans held))
  have holds : third.headerBuf.textAt 0 = some (header file.size) := by
    rw [header, ← List.nil_append (literal "HTTP/1.1 200 ok\r\n")]
    exact three.holds
  refine ⟨{ third with
    sent := (header file.size ++ bytes.take file.size).take (a.writev.getD 0) }, ?_, buf, rfl⟩
  unfold writeFile
  rw [prints]
  simp only [Option.bind_eq_bind, Option.bind_some]
  rw [prints']
  simp only [Option.bind_some]
  rw [prints'']
  simp only [Option.bind_some]
  rw [holds, buf]
  rfl

/-- The format of the second call would stand in front of the buffer. -/
theorem sendError_eq_none (nonneg : 0 ≤ s.len) : sendError s a = none := by
  unfold sendError
  rw [Option.bind_eq_bind, Option.bind_eq_none_iff]
  rintro ⟨ret, t⟩ prints
  obtain ⟨⟨ret', headerBuf⟩, inner, same⟩ := Option.map_eq_some_iff.mp prints
  obtain ⟨rfl, rfl⟩ := Prod.mk.inj same
  have positive := snprintf_nonneg inner
  have before : -1 - (St.advance { s with headerBuf } ret').len < 0 := by
    show -1 - (s.len + ret') < 0
    omega
  simp only [CArray.textAt_of_neg before, Option.bind_eq_bind, Option.bind_none]

end Assembly

section Tests

variable {s t : St} {file : File} {a : Answers} {bytes : List Byte}

theorem newBuf_eq_some (room : file.size + 1 < 2 ^ 63 ∧ a.allocates = true) :
    newBuf file a = some (List.replicate (file.size + 1) 0) := if_pos room

/-- What the buffer holds behind `read`. -/
def filled (file : File) (bytes : List Byte) : List Byte :=
  overlay bytes (List.replicate (file.size + 1) 0)

theorem checkFile_of_loads (fresh : Assembled s []) (valid : s.valid = true)
    (loads : Loads file a bytes) : ∃ t, checkFile s file a = some t ∧ Assembled t [] ∧
      t.valid = true ∧ t.fileBuf = some (filled file bytes) := by
  refine ⟨{ s with fileBuf := some (filled file bytes) }, ?_, ⟨fresh.holds, fresh.len⟩, valid, rfl⟩
  unfold checkFile readFile
  rw [loads.stat, loads.read, newBuf_eq_some loads.allocates]
  simp only [if_neg loads.regular, if_pos loads.readable, Option.map_some]
  rfl

/-- A test that fails clears `valid`. -/
theorem checkFile_rejects (rejected : ∀ bytes, ¬ Loads file a bytes)
    (run : checkFile s file a = some t) : t.valid = false ∧ t.len = s.len := by
  unfold checkFile at run
  cases stat : a.stat with
  | error errno =>
    rw [stat] at run
    obtain rfl := Option.some.inj run
    exact ⟨rfl, rfl⟩
  | ok u =>
    rw [stat] at run
    simp only at run
    split_ifs at run with directory readable
    · obtain rfl := Option.some.inj run
      exact ⟨rfl, rfl⟩
    · obtain ⟨buf, allocated, rfl⟩ := Option.map_eq_some_iff.mp run
      cases read : readBytes file a with
      | error errno => exact ⟨rfl, rfl⟩
      | ok bytes =>
        refine absurd ⟨stat, directory, readable, ?_, read⟩ (rejected bytes)
        by_contra room
        rw [newBuf, if_neg room] at allocated
        cases allocated
    · obtain rfl := Option.some.inj run
      exact ⟨rfl, rfl⟩

/-- `file_buf` is set behind the tests exactly when they come to `new`: not when `stat` fails, nor
for a directory or a file that others may not read. -/
theorem fileBuf_isSome_iff (unset : s.fileBuf = none) :
    (∀ t, checkFile s file a = some t → t.fileBuf.isSome) ↔
      a.stat = .ok () ∧ file.mode &&& sIfmt ≠ sIfdir ∧ has file.mode sIroth := by
  have never : ∀ {t : St}, t.fileBuf = none → ¬ ∀ u, some t = some u → u.fileBuf.isSome := by
    intro t none all
    simpa [none] using all t rfl
  unfold checkFile
  cases a.stat with
  | error errno => exact iff_of_false (never unset) nofun
  | ok _ =>
    simp only
    split_ifs with directory readable
    · exact iff_of_false (never unset) fun passes => passes.2.1 directory
    · refine iff_of_true (fun t reads => ?_) ⟨trivial, directory, readable⟩
      obtain ⟨buf, -, rfl⟩ := Option.map_eq_some_iff.mp reads
      cases readBytes file a with
      | error errno => rfl
      | ok bytes => rfl
    · exact iff_of_false (never unset) fun passes => readable passes.2.2

end Tests

theorem serve_of_loads {file : File} {a : Answers} {bytes : List Byte}
    (loads : Loads file a bytes) : ∃ t, serve file a = some t ∧ t.sent =
      (header file.size ++ (filled file bytes).take file.size).take (a.writev.getD 0) := by
  obtain ⟨s, checked, fresh, valid, buf⟩ :=
    checkFile_of_loads (s := boot a.errno) assembled_boot rfl loads
  obtain ⟨t, writes, held, sent⟩ := writeFile_eq fresh buf
  refine ⟨{ t with fileBuf := none }, ?_, sent⟩
  unfold serve respond
  rw [checked, Option.bind_eq_bind, Option.bind_some, if_pos valid, writes]
  show deleteBuf t = _
  rw [deleteBuf, held, Option.map_some]

theorem serve_rejected {file : File} {a : Answers} (rejected : ∀ bytes, ¬ Loads file a bytes) :
    serve file a = none := by
  unfold serve
  rw [Option.bind_eq_bind, Option.bind_eq_none_iff]
  intro s checked
  obtain ⟨invalid, len⟩ := checkFile_rejects rejected checked
  have responds : respond s file a = none := by
    rw [respond, invalid]
    exact sendError_eq_none (ge_of_eq len)
  rw [responds]
  rfl

section Answer

variable {file : File} {a : Answers} {bytes : List Byte} {n size : Nat}

/-- What is left of a response with "200" is not the one with "500". -/
theorem take_ne_failed {body : List Byte} : (header size ++ body).take n ≠ failed := by
  intro same
  have starts : failed <+: header size ++ body := same ▸ List.take_prefix n _
  have front := congrArg (List.take 10) (List.prefix_iff_eq_take.mp starts)
  rw [List.take_take, min_eq_left (by decide)] at front
  have five : failed.take 10 = literal "HTTP/1.1 5" := by decide
  have two : (header size ++ body).take 10 = literal "HTTP/1.1 2" := rfl
  rw [five, two] at front
  exact absurd front (by decide)

theorem readBytes_eq_ok_iff : readBytes file a = .ok bytes ↔
    a.opens = true ∧ ∃ n, a.read = .ok n ∧ bytes = file.contents.take n := by
  unfold readBytes
  cases a.opens with
  | false => simp
  | true =>
    cases read : a.read with
    | error errno => simp [Except.map]
    | ok n => simp [Except.map, eq_comm]

/-- A response is whole when the buffer holds the file and all of it is written. -/
theorem take_eq_found_iff (length : bytes.length = file.size) :
    (header file.size ++ bytes).take n = found file.contents ↔
      bytes = file.contents ∧ (found file.contents).length ≤ n := by
  have lengths : (header file.size ++ bytes).length = (found file.contents).length := by
    rw [found, List.length_append, List.length_append, length]
    rfl
  constructor
  · intro same
    have all : (found file.contents).length ≤ n := by
      rw [← same, List.length_take, lengths]
      omega
    rw [List.take_of_length_le (lengths ▸ all)] at same
    exact ⟨List.append_cancel_left same, all⟩
  · rintro ⟨rfl, all⟩
    exact List.take_of_length_le (lengths ▸ all)

theorem filled_length (fits : bytes.length ≤ file.size) :
    ((filled file bytes).take file.size).length = file.size := by
  rw [List.length_take, filled, overlay_length, List.length_replicate]
  omega

/-- A file that is loaded arrives when the rest of it is zero and all of it is written. -/
theorem arrives_iff (loads : Loads file a (file.contents.take n)) :
    (∃ t, serve file a = some t ∧ (t.sent = found file.contents ∨ t.sent = failed)) ↔
      (∀ b ∈ file.contents.drop n, b = 0) ∧
        (found file.contents).length ≤ a.writev.getD 0 := by
  obtain ⟨t, serves, sent⟩ := serve_of_loads loads
  have length := filled_length (List.length_take_le' n file.contents)
  have whole : (filled file (file.contents.take n)).take file.size = file.contents ↔
      ∀ b ∈ file.contents.drop n, b = 0 := overlay_take_replicate_eq_iff (Nat.le_succ _)
  rw [← whole, ← take_eq_found_iff length]
  constructor
  · rintro ⟨t', serves', found | failed⟩
    · obtain rfl := Option.some.inj (serves.symm.trans serves')
      exact sent.symm.trans found
    · obtain rfl := Option.some.inj (serves.symm.trans serves')
      exact absurd (sent.symm.trans failed) take_ne_failed
  · intro found
    exact ⟨t, serves, .inl (sent.trans found)⟩

end Answer

/-- The client gets a whole response, and `file_buf` is not used before it is set, exactly when the
file can be read, is read up to zeros at its end, and is written at once. -/
theorem wellServed_iff (file : File) (a : Answers) : WellServed file a ↔ Whole file a := by
  constructor
  · rintro ⟨complete, -⟩
    by_cases rejected : ∀ bytes, ¬ Loads file a bytes
    · obtain ⟨t, serves, -⟩ := complete
      rw [serve_rejected rejected] at serves
      cases serves
    · push Not at rejected
      obtain ⟨bytes, loads⟩ := rejected
      obtain ⟨opens, n, read, rfl⟩ := readBytes_eq_ok_iff.mp loads.read
      obtain ⟨zeros, all⟩ := (arrives_iff loads).mp complete
      refine ⟨loads.stat, loads.regular, loads.readable, loads.allocates, opens,
        ⟨n, read, zeros⟩, ?_⟩
      cases wrote : a.writev with
      | none =>
        rw [wrote, Option.getD_none, Nat.le_zero, List.length_eq_zero_iff] at all
        cases all
      | some k =>
        rw [wrote] at all
        exact ⟨k, rfl, all⟩
  · intro whole
    obtain ⟨n, read, zeros⟩ := whole.read
    obtain ⟨k, wrote, all⟩ := whole.writev
    have loads : Loads file a (file.contents.take n) :=
      ⟨whole.stat, whole.regular, whole.readable, whole.allocates,
        readBytes_eq_ok_iff.mpr ⟨whole.opens, n, read, rfl⟩⟩
    refine ⟨(arrives_iff loads).mpr ⟨zeros, ?_⟩, ?_⟩
    · rw [Option.mem_def.mp wrote]
      exact all
    · exact (fileBuf_isSome_iff rfl).mpr ⟨whole.stat, whole.regular, whole.readable⟩

/-- A file with the text "hi" that everyone may read. -/
def hi : File := ⟨0x81a4, [104, 105], by decide⟩

def answering (stat : Except Int Unit) (read writev : Nat) : Answers where
  errno := 0
  stat := stat
  opens := true
  allocates := true
  read := .ok read
  writev := some writev
  send := some 40

/-- A missing file (`ENOENT`), a file of which `read` returns one byte, and a response of which
`writev` takes 20 bytes. -/
theorem not_wellServed : ¬ WellServed hi (answering (.error 2) 2 60) ∧
    ¬ WellServed hi (answering (.ok ()) 1 60) ∧ ¬ WellServed hi (answering (.ok ()) 2 20) := by
  have loads : ∀ n k, Loads hi (answering (.ok ()) n k) (hi.contents.take n) := fun n k =>
    ⟨rfl, by decide, by decide, ⟨by decide, rfl⟩, rfl⟩
  refine ⟨fun served => ?_, fun served => ?_, fun served => ?_⟩
  · obtain ⟨t, serves, -⟩ := served.complete
    have missing : ∀ bytes, ¬ Loads hi (answering (.error 2) 2 60) bytes := by
      intro bytes loads
      cases loads.stat
    rw [serve_rejected missing] at serves
    cases serves
  · have zeros := ((arrives_iff (loads 1 60)).mp served.complete).1
    exact absurd (zeros 105 (by decide)) (by decide)
  · have all := ((arrives_iff (loads 2 20)).mp served.complete).2
    exact absurd all (by decide)

end JiajiaNetwork.WritevServer
