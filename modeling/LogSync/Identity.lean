import LogSync.Digest.Blake3
import LogSync.SortedMap
import LogSync.Text.Hex

/-!
# Identifiers

Peers and cores are named by 32 bytes, written as 64 hexadecimal digits. The bytes are held as one
number whose highest byte comes first, so the order of the numbers is the order of the byte strings
and of the written digits.
-/

namespace LogSync

/-- Thirty-two bytes, the first one in the highest place. -/
structure Identifier where
  bits : BitVec 256
deriving DecidableEq, Inhabited

namespace Identifier

instance : Ord Identifier := ⟨compareOn bits⟩
instance : Std.TransOrd Identifier := inferInstanceAs (Std.TransCmp (compareOn bits))
instance : Std.LawfulEqOrd Identifier := lawfulEqCmp_compareOn bits fun ⟨_⟩ ⟨_⟩ => congrArg mk

/-- The identifier with the given bytes, if there are 32. -/
def ofBytes? (bytes : List UInt8) : Option Identifier :=
  if bytes.length = 32 then
    some ⟨.ofNat 256 (bytes.foldl (fun n b => 256 * n + b.toNat) 0)⟩
  else none

/-- The identifier whose 64 digits are given in either case. -/
def read? (text : String) : Option Identifier :=
  if text.toList.length = 64 then (Hex.read? text.toList).map fun n => ⟨.ofNat 256 n⟩ else none

/-- The 64 lowercase digits. -/
def digits (i : Identifier) : List Char := Hex.write 64 i.bits.toNat

/-- The 64 lowercase digits as text. -/
def text (i : Identifier) : String := String.ofList i.digits

/-- The first eight digits, enough for a person to tell identifiers apart. -/
def short (i : Identifier) : String := String.ofList (i.digits.take 8)

/-- The 32 bytes. -/
def bytes (i : Identifier) : List UInt8 :=
  (List.range 32).map fun k => (i.bits.toNat >>> (8 * (31 - k))).toUInt8

end Identifier

/-- What is said of a text that is no identifier. -/
def identifierExpected : String := "invalid identifier: expected 64 hex characters"

/-- Names a peer: its public key. -/
structure PeerId where
  id : Identifier
deriving DecidableEq, Inhabited

namespace PeerId

instance : Ord PeerId := ⟨compareOn id⟩
instance : Std.TransOrd PeerId := inferInstanceAs (Std.TransCmp (compareOn id))
instance : Std.LawfulEqOrd PeerId := lawfulEqCmp_compareOn id fun ⟨_⟩ ⟨_⟩ => congrArg mk

/-- The peer whose 64 digits are given in either case. -/
def read? (text : String) : Option PeerId := (Identifier.read? text).map mk

/-- The 64 lowercase digits of the identifier. -/
def text (p : PeerId) : String := p.id.text

/-- The short form for people. -/
def describe (p : PeerId) : String := "PeerId(" ++ p.id.short ++ ")"

/-- The peer that a name alone stands for: the digest of its characters. -/
def ofName (name : String) : PeerId :=
  ⟨(Identifier.ofBytes? (Blake3.hash name.toUTF8.toList)).getD default⟩

end PeerId

/-- Names a core without giving away the key that reads it. -/
structure DiscoveryKey where
  id : Identifier
deriving DecidableEq, Inhabited

namespace DiscoveryKey

instance : Ord DiscoveryKey := ⟨compareOn id⟩
instance : Std.TransOrd DiscoveryKey := inferInstanceAs (Std.TransCmp (compareOn id))
instance : Std.LawfulEqOrd DiscoveryKey := lawfulEqCmp_compareOn id fun ⟨_⟩ ⟨_⟩ => congrArg mk

/-- The discovery key whose 64 digits are given in either case. -/
def read? (text : String) : Option DiscoveryKey := (Identifier.read? text).map mk

/-- The 64 lowercase digits of the identifier. -/
def text (k : DiscoveryKey) : String := k.id.text

/-- The short form for people. -/
def describe (k : DiscoveryKey) : String := "DiscoveryKey(" ++ k.id.short ++ ")"

/-- The context that sets discovery keys apart from other keys derived from a core's key. -/
def derivationContext : String := "offgrid-sync 2024-01-01 core discovery key"

/-- The discovery key of the core that a core key reads. -/
def ofCoreKey (coreKey : Identifier) : DiscoveryKey :=
  ⟨(Identifier.ofBytes? (Blake3.deriveKey derivationContext coreKey.bytes)).getD default⟩

end DiscoveryKey

end LogSync
