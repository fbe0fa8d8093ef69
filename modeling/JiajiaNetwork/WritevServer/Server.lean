/- What `test_writev.c` does with a client that it has accepted: it reads the file into a buffer and
   answers with it, or with an error. Uses of `file_buf` while it is not set, accesses beyond a
   buffer and an exception of `new` end the program (`none`). -/
import JiajiaNetwork.Lib.Flags
import JiajiaNetwork.Lib.Printf

set_option autoImplicit false
set_option relaxedAutoImplicit false

namespace JiajiaNetwork.WritevServer

open Lib

/-- `st_mode`. -/
abbrev Mode := BitVec 32

def sIfmt : Mode := 0xf000
def sIfdir : Mode := 0x4000
def sIroth : Mode := 0x4

def buffSize : Int := 1024

def ebadf : Int := 9

def statusLine : Fin 2 → List Byte
  | 0 => literal "200 ok"
  | 1 => literal "500 Internal server error"

/-- A file, whose size an `off_t` holds. -/
structure File where
  mode : Mode
  contents : List Byte
  size_lt : contents.length < 2 ^ 63

/-- The field `st_size`. -/
def File.size (file : File) : Nat := file.contents.length

/-- What the calls return: a failure, with the `errno` that is printed, or the number of bytes that
they moved. `errno` itself may hold anything at first. -/
structure Answers where
  errno : Int
  stat : Except Int Unit
  opens : Bool
  allocates : Bool
  read : Except Int Nat
  writev : Option Nat
  send : Option Nat

structure St where
  errno : Int
  /-- the values after "errno is:" -/
  printed : List Int
  valid : Bool
  /-- the bytes behind the pointer, which is not set at first -/
  fileBuf : Option (List Byte)
  headerBuf : CArray buffSize Byte
  len : Int
  /-- what the client gets -/
  sent : List Byte

def boot (errno : Int) : St where
  errno := errno
  printed := []
  valid := true
  fileBuf := none
  headerBuf := ⟨fun _ => 0⟩
  len := 0
  sent := []

/-- A call has failed, or a test; `errno` is printed. -/
def St.reject (s : St) (errno : Int) : St :=
  { s with errno, printed := s.printed ++ [errno], valid := false }

/-- `new char[file_stat.st_size + 1]`, cleared. The sum is computed as an `off_t`. -/
def newBuf (file : File) (a : Answers) : Option (List Byte) :=
  if file.size + 1 < 2 ^ 63 ∧ a.allocates then some (List.replicate (file.size + 1) 0) else none

/-- `read` of as many bytes as the file has. It fails when `open` did. -/
def readBytes (file : File) (a : Answers) : Except Int (List Byte) :=
  if a.opens then a.read.map fun n => file.contents.take n else .error ebadf

/-- `open`, `new` and `read`. -/
def readFile (s : St) (file : File) (a : Answers) : Option St :=
  (newBuf file a).map fun buf =>
    match readBytes file a with
    | .error errno => { s with fileBuf := some buf }.reject errno
    | .ok bytes => { s with fileBuf := some (overlay bytes buf) }

/-- The tests of the file, up to the one of `valid`. -/
def checkFile (s : St) (file : File) (a : Answers) : Option St :=
  match a.stat with
  | .error errno => some (s.reject errno)
  | .ok _ =>
    if file.mode &&& sIfmt = sIfdir then some { s with valid := false }
    else if has file.mode sIroth then readFile s file a
    else some (s.reject s.errno)

/-- `snprintf` to the end of `header_buf`. -/
def St.snprintf (s : St) (format : String) (args : List Arg) : Option (Int × St) :=
  (Lib.snprintf s.headerBuf s.len (buffSize - 1 - s.len) (literal format) args).map
    fun (ret, headerBuf) => (ret, { s with headerBuf })

/-- `len += ret`. -/
def St.advance (s : St) (ret : Int) : St := { s with len := s.len + ret }

def writeFile (s : St) (file : File) (a : Answers) : Option St := do
  let (ret, s) ← s.snprintf "%s %s\r\n" [.s (literal "HTTP/1.1"), .s (statusLine 0)]
  let s := s.advance ret
  let (ret, s) ← s.snprintf "Content-Length:%ld\r\n" [.ld file.size]
  let s := s.advance ret
  let (_, s) ← s.snprintf "%s" [.s (literal "\r\n")]
  let header ← s.headerBuf.textAt 0
  let fileBuf ← s.fileBuf
  some { s with sent := (header ++ fileBuf.take file.size).take (a.writev.getD 0) }

/-- The `sprintf` for the empty line takes `header_buf-1-len` for its format. -/
def sendError (s : St) (a : Answers) : Option St := do
  let (ret, s) ← s.snprintf "%s %s\r\n" [.s (literal "HTTP/1.1"), .s (statusLine 1)]
  let s := s.advance ret
  let format ← s.headerBuf.textAt (-1 - s.len)
  let text ← expand format [.s (literal "%s"), .s (literal "\r\n")]
  let headerBuf ← s.headerBuf.blit s.len (text ++ [0])
  let header ← headerBuf.textAt 0
  some { s with headerBuf, sent := header.take (a.send.getD 0) }

def respond (s : St) (file : File) (a : Answers) : Option St :=
  if s.valid then writeFile s file a else sendError s a

/-- `delete [] file_buf`, behind `close(connfd)`. -/
def deleteBuf (s : St) : Option St := s.fileBuf.map fun _ => { s with fileBuf := none }

def serve (file : File) (a : Answers) : Option St := do
  let s ← checkFile (boot a.errno) file a
  let s ← respond s file a
  deleteBuf s

end JiajiaNetwork.WritevServer
