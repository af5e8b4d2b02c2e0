/-
  XrayCore.Xdns.Message

  DNS messages as the DNS library hands them over once they are unpacked.

  Names come with their compression undone and are at most 255 bytes long; a record
  carries the body its type says.  Unpacking itself is the library's, and so a
  parameter of what follows: `none` is its error.
-/

import XrayCore.Bytes.Slice

namespace XrayCore.Xdns

/-! ## Names -/

/-- `Name`: the first `Length` bytes of its array of 255, with the dots, the one at
    the end included. -/
structure Name where
  data : Bytes
  length_le : data.length ≤ 255
deriving DecidableEq

def Name.length (name : Name) : ℕ := name.data.length

theorem Name.take_length (name : Name) : name.data.take name.length = name.data :=
  List.take_length

/-! ## Records -/

def typeA : UInt16 := 1
def typeCNAME : UInt16 := 5
def typeTXT : UInt16 := 16
def typeAAAA : UInt16 := 28
def typeOPT : UInt16 := 41

/-- What a record carries.  A type that the tunnel does not look at keeps its number,
    which is then none of the others. -/
inductive Body where
  | a (address : Vector UInt8 4)
  | cname (target : Name)
  | txt (strings : List Bytes)
  | aaaa (address : Vector UInt8 16)
  | opt
  | other (type : UInt16) (unknown : type ∉ [typeA, typeCNAME, typeTXT, typeAAAA, typeOPT])
deriving DecidableEq

def Body.type : Body → UInt16
  | .a _ => typeA
  | .cname _ => typeCNAME
  | .txt _ => typeTXT
  | .aaaa _ => typeAAAA
  | .opt => typeOPT
  | .other type _ => type

structure Resource where
  name : Name
  class' : UInt16
  ttl : UInt32
  body : Body
deriving DecidableEq

def Resource.type (r : Resource) : UInt16 := r.body.type

/-! ## Messages -/

def rCodeSuccess : UInt16 := 0
def rCodeFormatError : UInt16 := 1
def rCodeNameError : UInt16 := 3
def rCodeNotImplemented : UInt16 := 4

structure Header where
  id : UInt16
  response : Bool
  opCode : UInt16
  authoritative : Bool
  truncated : Bool
  rCode : UInt16
deriving DecidableEq

structure Question where
  name : Name
  type : UInt16
  class' : UInt16
deriving DecidableEq

structure Message where
  header : Header
  questions : List Question
  answers : List Resource
  additionals : List Resource
deriving DecidableEq

end XrayCore.Xdns
