import CanonJson.Problem
import CanonJson.Syntax.Parser
/-!
# Documents as they arrive

A document comes as text or as octets. Octets have to be UTF-8 and text has to be free of surrogates;
the first violation is located like any other fault, with the offset counted in octets for octets.
-/

namespace CanonJson

/-- A document before it is read. -/
inductive Source where
  | text (t : Text)
  | bytes (bs : Bytes)
  | other (d : Datum)

namespace Source

def decode : Source → Except Problem Text
  | .text t =>
    match t.findIdx? CodePoint.isSurrogate with
    | none => .ok t
    | some offset =>
      .error (.malformed
        (.behind (.surrogateInput ((t.drop offset).headD (.ofNat 0xD800))) offset (t.take offset)))
  | .bytes bs =>
    match Utf8.scan bs with
    | (t, []) => .ok t
    | (t, b :: rest) =>
      .error (.malformed (.behind (.invalidByte b) (bs.length - (b :: rest).length) t))
  | .other d => .error (.sourceType d.typeName)

def octetOf (d : Datum) : Except Problem UInt8 :=
  let byte (n : Int) : Except Problem UInt8 :=
    if 0 ≤ n ∧ n < 256 then .ok (UInt8.ofNat n.toNat) else .error .octetRange
  match d with
  | .scalar (.bool b) => byte b.toNat
  | .scalar (.int n) => byte n
  | _ => .error (.notOctet d.qualifiedName)

/-- As many zeros as a number says, as long as that is an index and there is memory for them. -/
def zeros (n : Int) : Except Problem Bytes := do
  checkIndex n
  if n < 0 then throw .negativeCount
  if n > maxOctets then throw .octetsTooLong
  if n ≥ memoryBound then throw .outOfMemory
  return List.replicate n.toNat 0

/-- The octets of a document: text is encoded, a number stands for that many zeros, and a collection
for the octets that it lists. -/
def octets : Source → Except Problem Bytes
  | .text t =>
    match Utf8.encode t with
    | .ok bs => .ok bs
    | .error e => .error (.unencodable e)
  | .bytes bs => .ok bs
  | .other (.scalar (.bool b)) => .ok (List.replicate b.toNat 0)
  | .other (.scalar (.int n)) => zeros n
  | .other (.list items) | .other (.tuple items) | .other (.set items) => items.mapM octetOf
  | .other (.table entries) => entries.mapM fun e => octetOf e.1
  | .other d => .error (.notOctets d.qualifiedName)

end Source

/-- The nesting limit when none is given. -/
def defaultDepth : Nat := 512

/-- A nesting limit as it is handed in: a positive integer. -/
def depthLimit (d : Datum) : Except Problem Nat :=
  match d with
  | .scalar (.int n) => if n < 1 then .error (.depthLimit d) else .ok n.toNat
  | _ => .error (.depthLimit d)

/-- The tree that a document denotes, with at most `limit` containers around any point of it. -/
def parse (limit : Nat) (source : Source) : Except Problem Value := do
  let t ← source.decode
  match Syntax.parseText limit t with
  | .ok v => return v
  | .error e => throw (.malformed e)

end CanonJson
