import Mathlib.Data.List.Nodup
import Mathlib.Logic.Function.Basic
import Mathlib.Algebra.Group.Nat.Defs

namespace MachVM

/-- A 32-bit address or offset: all arithmetic on it wraps. -/
abbrev VmOffset := BitVec 32

abbrev VmSize := BitVec 32

/-- A protection code is a machine word of which only three bits are defined. -/
abbrev VmProt := BitVec 32

def protNone : VmProt := 0#32
def protRead : VmProt := 1#32
def protWrite : VmProt := 2#32
def protExecute : VmProt := 4#32
def protDefault : VmProt := protRead ||| protWrite ||| protExecute
def protAll : VmProt := protRead ||| protWrite ||| protExecute

/-- The contents of one page frame, read as a number. -/
abbrev PageData := Nat

def zeroPage : PageData := 0

abbrev ObjId := Nat
abbrev PageId := Nat
abbrev PortId := Nat

def pageSize : VmOffset := 4096#32
def pageShift : Nat := 12

inductive CopyStrategy
  | none
  | call
  | delay
  deriving DecidableEq, Repr

inductive KernReturn
  | success
  | invalidAddress
  | protectionFailure
  | noSpace
  | invalidArgument
  | failure
  | memoryError
  | resourceShortage
  deriving DecidableEq, Repr

end MachVM
