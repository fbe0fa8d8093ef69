/- `pthread/test_pthread_mutex_t.c`: `main` and `another` lock two mutexes in opposite orders around
   their updates of `a` and `b`. Each read and each write of a variable is an operation of its own,
   so that the threads interleave between them. -/
import JiajiaNetwork.Lib.Threads

set_option autoImplicit false
set_option relaxedAutoImplicit false

namespace JiajiaNetwork.PthreadMutex

open Lib Lib.Threads

inductive Thread
  | main
  | another
  deriving DecidableEq

instance : Fintype Thread := ⟨{.main, .another}, by rintro (_ | _) <;> decide⟩

inductive Name
  | mutexA
  | mutexB
  deriving DecidableEq

/-- What a thread has read of `a` and `b`. -/
structure Registers where
  a : Int
  b : Int
  deriving DecidableEq

structure Data where
  a : Int
  b : Int
  main : Registers
  another : Registers
  deriving DecidableEq

abbrev Code := List (Op Thread Name Data)

/-- `++a; … a += b++;` -/
def mainCode : Code :=
  [.init .mutexA, .init .mutexB, .create .another,
    .lock .mutexA,
    .act fun d => { d with main.a := d.a }, .act fun d => { d with a := d.main.a + 1 },
    .lock .mutexB,
    .act fun d => { d with main.b := d.b }, .act fun d => { d with b := d.main.b + 1 },
    .act fun d => { d with main.a := d.a }, .act fun d => { d with a := d.main.a + d.main.b },
    .unlock .mutexB, .unlock .mutexA, .join .another, .destroy .mutexA, .destroy .mutexB]

/-- `++b; … b += a++;` -/
def anotherCode : Code :=
  [.lock .mutexB,
    .act fun d => { d with another.b := d.b }, .act fun d => { d with b := d.another.b + 1 },
    .lock .mutexA,
    .act fun d => { d with another.a := d.a }, .act fun d => { d with a := d.another.a + 1 },
    .act fun d => { d with another.b := d.b },
    .act fun d => { d with b := d.another.b + d.another.a },
    .unlock .mutexA, .unlock .mutexB]

def code : Programs Thread Name Data
  | .main => mainCode
  | .another => anotherCode

def initialData : Data := ⟨0, 0, ⟨0, 0⟩, ⟨0, 0⟩⟩

abbrev machine : Machine (St Thread Name Data) Thread := Threads.machine code .main initialData

def initial : St Thread Name Data :=
  ⟨Function.update (fun _ => none) .main (some 0), fun _ => .raw, initialData⟩

instance (s : St Thread Name Data) (t : Thread) : Decidable (machine.Lawful s t) :=
  inferInstanceAs (Decidable (Ready code s t))

end JiajiaNetwork.PthreadMutex
