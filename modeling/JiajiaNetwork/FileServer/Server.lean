/- The reloading file server of `test_libevent/basichttpfile.c`: its file is rewritten, the timer
   calls `load_file` and requests arrive, in any order. A copy that finds no zero byte runs beyond
   its buffers, which is a fault (`none`). -/
import JiajiaNetwork.Lib.CArray
import JiajiaNetwork.Lib.Machine
import JiajiaNetwork.Lib.Refresh
import Mathlib.Algebra.Group.Int.Defs
import Mathlib.Algebra.Group.Nat.Defs
import Mathlib.Data.Int.Order.Basic

set_option autoImplicit false
set_option relaxedAutoImplicit false

namespace JiajiaNetwork.FileServer

open Lib

/-- `time_t`, in whole seconds. -/
abbrev Time := Int

/-- The value that an `int` gets from a `long`. -/
def toInt (n : Nat) : Int := Int.bmod n (2 ^ 32)

/-- Before the call of `load_file` in `main`; in the event loop; behind a call of `exit`. -/
inductive Control
  | loading
  | serving
  | exited
  deriving DecidableEq

/-- What `read_file` says on `stderr`. -/
inductive Message
  | reloadingFile
  | loadingFile
  | couldNotOpen
  | size (bytes : Int)
  deriving DecidableEq

/-- What a tick of the timer saw: the modification time and the bytes of the file. -/
abbrev Tick := Sample Time (List Byte)

structure St where
  ctl : Control
  file : List Byte
  mtime : Time
  /-- the text behind `filedata`, which is NULL at first -/
  filedata : Option (List Byte)
  lasttime : Time
  counter : Int
  stderr : List Message
  /-- the ticks and the replies so far, for the statements only -/
  ticks : List Tick
  replies : List (List Byte)

/-- Whether `fopen` succeeds, and the byte that `malloc` left behind the data of the file. -/
structure Answers where
  opens : Bool
  behind : Byte

inductive Input
  | rewrite (file : List Byte) (mtime : Time)
  | tick (answers : Answers)
  | request

/-- The number of bytes that `read_file` asks `malloc` and `fread` for is `size + 1` and `size`,
computed as an `int`. -/
def Fits (size : Int) : Prop := 0 ≤ size ∧ size + 1 < 2 ^ 31

instance (size : Int) : Decidable (Fits size) := inferInstanceAs (Decidable (_ ∧ _))

/-- What `fread` reads of the file. -/
def data (file : List Byte) : List Byte := file.take (toInt file.length).toNat

/-- `fread` fills `data` up to its last byte, and `strcpy` copies it up to its first zero. -/
def copied (file : List Byte) (behind : Byte) : Option (List Byte) :=
  if Fits (toInt file.length) then cString (data file ++ [behind]) else none

def St.say (s : St) (message : Message) : St := { s with stderr := s.stderr ++ [message] }

def St.announce (s : St) : St :=
  { s with counter := s.counter + 1 }.say
    (if s.counter ≠ 0 then .reloadingFile else .loadingFile)

def readFile (s : St) (a : Answers) : Option St :=
  if s.lasttime < s.mtime then
    let s := s.announce
    if a.opens then
      (copied s.file a.behind).map fun text =>
        { s with filedata := some text, lasttime := s.mtime }.say (.size (toInt s.file.length))
    else some ({ s with ctl := .exited }.say .couldNotOpen)
  else some s

/-- `load_file`, which also sets the timer again. -/
def loadFile (s : St) (a : Answers) : Option St :=
  readFile { s with ctl := .serving, ticks := s.ticks ++ [⟨s.mtime, s.file⟩] } a

/-- `evbuffer_add_printf(evb, "%s", filedata)`, with a text to print. -/
def genericRequestHandler (s : St) : Option St :=
  s.filedata.map fun text => { s with replies := s.replies ++ [text] }

def step (s : St) : Input → Option St
  | .rewrite file mtime => some { s with file, mtime }
  | .tick a => loadFile s a
  | .request => genericRequestHandler s

def boot (file : List Byte) (mtime : Time) : St where
  ctl := .loading
  file := file
  mtime := mtime
  filedata := none
  lasttime := 0
  counter := 0
  stderr := []
  ticks := []
  replies := []

def Start (s : St) : Prop := ∃ file mtime, s = boot file mtime

/-- Modification times do not go back, and requests are answered in the event loop. -/
def Lawful (s : St) : Input → Prop
  | .rewrite _ mtime => s.mtime ≤ mtime
  | .tick _ => s.ctl ≠ .exited
  | .request => s.ctl = .serving

instance (s : St) : (a : Input) → Decidable (Lawful s a)
  | .rewrite _ mtime => inferInstanceAs (Decidable (s.mtime ≤ mtime))
  | .tick _ => inferInstanceAs (Decidable (s.ctl ≠ .exited))
  | .request => inferInstanceAs (Decidable (s.ctl = .serving))

def machine : Machine St Input where
  Start := Start
  Lawful := Lawful
  step := step

instance (s : St) (a : Input) : Decidable (machine.Lawful s a) :=
  inferInstanceAs (Decidable (Lawful s a))

end JiajiaNetwork.FileServer
