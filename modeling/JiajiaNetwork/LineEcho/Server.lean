/- The callbacks of `test_libevent/demo1.c` for one client. `evbuffer_readline` belongs to libevent
   and is a parameter. -/
import JiajiaNetwork.Lib.CArray
import JiajiaNetwork.Lib.Lines

set_option autoImplicit false
set_option relaxedAutoImplicit false

namespace JiajiaNetwork.LineEcho

open Lib

/-- The input buffer of a `bufferevent`, and the texts that were written to it, in order. -/
structure Bufferevent where
  input : List Byte
  output : List (List Byte)
  deriving DecidableEq

def ascii (text : String) : List Byte := text.toList.map fun c => UInt8.ofNat c.toNat

/-- `You said %s`, with `req` ended by a zero byte as `evbuffer_readline` returns it. -/
def youSaid (req : List Byte) : List Byte :=
  ascii "You said " ++ (cString (req ++ [0])).getD [] ++ ascii "\n"

/-- The reply that a line should get. -/
def reply (line : List Byte) : List Byte := ascii "You said " ++ line ++ ascii "\n"

/-- `evbuffer_readline`: a line and what it leaves in the buffer, or nothing. -/
abbrev Readline := List Byte → Option (List Byte × List Byte)

/-- One line is read, and answered if there is one. -/
def bufReadCallback (readline : Readline) (incoming : Bufferevent) : Bufferevent :=
  match readline incoming.input with
  | none => incoming
  | some (req, rest) => { input := rest, output := incoming.output ++ [youSaid req] }

/-- libevent appends what has arrived and calls the callback for it that `accept_callback` has
registered. -/
def arrives (readline : Readline) (incoming : Bufferevent) (chunk : List Byte) : Bufferevent :=
  bufReadCallback readline { incoming with input := incoming.input ++ chunk }

/-- A client from its `accept` on. -/
def serve (readline : Readline) (chunks : List (List Byte)) : Bufferevent :=
  chunks.foldl (arrives readline) ⟨[], []⟩

/-- Lines that end with a newline. -/
def newlineLine : Readline
  | [] => none
  | c :: later =>
    if c = 10 then some ([], later)
    else (newlineLine later).map fun found => (c :: found.1, found.2)

def newlineReader : LineReader Byte where
  readline := newlineLine
  shorter := by
    intro buf
    induction buf with
    | nil => exact nofun
    | cons c later ih =>
      intro line rest read
      unfold newlineLine at read
      split_ifs at read with ends
      · obtain ⟨-, rfl⟩ := Prod.mk.inj (Option.some.inj read)
        exact Nat.lt_succ_self _
      · obtain ⟨⟨front, back⟩, found, same⟩ := Option.map_eq_some_iff.mp read
        obtain ⟨-, rfl⟩ := Prod.mk.inj same
        exact Nat.lt_succ_of_lt (ih found)
  stable := by
    intro buf
    induction buf with
    | nil => exact nofun
    | cons c later ih =>
      intro line rest read more
      rw [List.cons_append]
      unfold newlineLine at read ⊢
      split_ifs at read ⊢ with ends
      · obtain ⟨rfl, rfl⟩ := Prod.mk.inj (Option.some.inj read)
        rfl
      · obtain ⟨⟨front, back⟩, found, same⟩ := Option.map_eq_some_iff.mp read
        obtain ⟨rfl, rfl⟩ := Prod.mk.inj same
        rw [ih found more]
        rfl

example : (serve newlineLine [[104, 105], [10, 121], [111, 10]]).output =
    [ascii "You said hi\n", ascii "You said yo\n"] := by decide +kernel

end JiajiaNetwork.LineEcho
