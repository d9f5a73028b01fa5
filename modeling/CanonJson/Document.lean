import CanonJson.Digest.Sha256
import CanonJson.Order.Canonical
import CanonJson.Syntax.Source
/-!
# Documents

The whole way of a document: read it, put it into canonical order, print it, and digest what was
printed. Options that are not given are the plain ones for printing and those of RFC 8785 for
digests.
-/

namespace CanonJson

/-- The name of the hash function in front of a digest. -/
def digestPrefix : Text := "sha256:"

/-- The digest of octets that are canonical already. -/
def digestBytes (bs : Bytes) : Text :=
  digestPrefix ++ Sha256.hexDigest bs

/-- The octets of a tree's canonical form. -/
def canonicalBytes (order : SortOptions) (layout : LayoutOptions) (v : Value) : Except Problem Bytes := do
  renderBytes layout (← canonicalize order v)

/-- The digest of a tree's canonical form. -/
def digestValue (order : Option SortOptions) (layout : Option LayoutOptions) (v : Value) :
    Except Problem Text := do
  return digestBytes (← canonicalBytes (order.getD .rfc8785) (layout.getD .rfc8785) v)

/-- The canonical form of a document. -/
def canonicalizeDocument (order : Option SortOptions) (layout : Option LayoutOptions) (limit : Nat)
    (source : Source) : Except Problem Bytes := do
  canonicalBytes (order.getD {}) (layout.getD {}) (← parse limit source)

/-- Whether octets are their own canonical form. -/
def isCanonicalDocument (order : Option SortOptions) (layout : Option LayoutOptions) (limit : Nat)
    (bs : Bytes) : Except Problem Bool := do
  return (← canonicalizeDocument order layout limit (.bytes bs)) == bs

/-- The digest of a document's canonical form. -/
def digestDocument (order : Option SortOptions) (layout : Option LayoutOptions) (limit : Nat)
    (source : Source) : Except Problem Text := do
  digestValue order layout (← parse limit source)

end CanonJson
