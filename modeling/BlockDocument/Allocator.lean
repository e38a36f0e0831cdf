import BlockDocument.BlockId
import BlockDocument.Content
import BlockDocument.Hash.Blake3
import BlockDocument.Role

/-!
# Ids for new blocks

An allocator names new blocks, either by counting or by a hash of their content and role. Both ways
pass over the ids that are in use.
-/

namespace BlockDocument

-- Powers are those of the core library, whatever else is imported.
attribute [local instance (high)] instPowNat

/-- How new blocks are named. -/
inductive Policy where
  /-- By counting. -/
  | sequential
  /-- By a hash of content and role. -/
  | contentAddressed
  deriving DecidableEq, Repr

/-- The source of ids of one document. -/
structure Allocator where
  policy : Policy
  /-- The next number to try when counting. -/
  next : Nat := 1
  deriving DecidableEq, Repr

namespace Policy

/-- The name of a policy. -/
def name : Policy → String
  | sequential => "sequential"
  | contentAddressed => "content_addressed"

/-- The policy with exactly this name. -/
def parse? (s : String) : Option Policy := [sequential, contentAddressed].find? (·.name == s)

end Policy

/-- Eight bytes of a number, the least first. -/
def wordBytes (n : Nat) : List UInt8 := (List.range 8).map fun i => (n / 256 ^ i % 256).toUInt8

/-- The bytes of a text. -/
def utf8 (s : String) : List UInt8 := s.toUTF8.toList

/-- The bytes that are hashed for a content and a role: the name of the kind, the text and the name
of the role with a zero byte between them, and after a zero byte the salt, unless it is zero. -/
def addressBytes (c : Content) (role : Option Role) (salt : Nat) : List UInt8 :=
  utf8 c.kind.name ++ 0 :: utf8 c.asText ++ 0 :: utf8 ((role.map Role.name).getD "") ++
    if salt = 0 then [] else 0 :: wordBytes salt

/-- The digits of a byte in base sixteen. -/
def byteDigits (b : UInt8) : List Char :=
  [Number.hexDigit (b.toNat / 16), Number.hexDigit b.toNat]

/-- The id that a content and a role have under a salt: the first six bytes of the hash. -/
def contentAddress (c : Content) (role : Option Role) (salt : Nat) : BlockId :=
  let bytes := (Hash.Blake3.hash (addressBytes c role salt)).take (BlockId.digitCount / 2)
  ⟨String.ofList (BlockId.mark ++ bytes.flatMap byteDigits)⟩

/-- The first free candidate from a number on, and the number after it. -/
def firstFree (candidate : Nat → BlockId) (taken : BlockId → Bool) :
    Nat → Nat → Option (BlockId × Nat)
  | 0, _ => none
  | fuel + 1, n =>
    if taken (candidate n) then firstFree candidate taken fuel (n + 1)
    else some (candidate n, n + 1)

/-- Salts are words of 64 bits. -/
def saltBound : Nat := 2 ^ (64 : Nat)

namespace Allocator

/-- Names a new block by an id that is not taken. Counting ends at the greatest number that an id
has room for; then there is no id. -/
def allocate (a : Allocator) (c : Content) (role : Option Role) (taken : BlockId → Bool) :
    Option BlockId × Allocator :=
  match a.policy with
  | .sequential =>
    match firstFree .ofSuffix taken (BlockId.maxSuffix + 1 - a.next) a.next with
    | some (id, next) => (some id, { a with next })
    | none => (none, { a with next := max a.next (BlockId.maxSuffix + 1) })
  | .contentAddressed =>
    ((firstFree (contentAddress c role) taken saltBound 0).map Prod.fst, a)

/-- Takes note of an id that is in use: counting goes on after its number. -/
def observe (a : Allocator) (id : BlockId) : Allocator :=
  match id.suffix? with
  | some n => { a with next := max a.next (n + 1) }
  | none => a

end Allocator

end BlockDocument
