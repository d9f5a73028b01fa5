/-!
# Lexicographic order

Lists compared at the first place where they differ, by a rank of their elements; a list comes before
its extensions.
-/

namespace CanonJson

def lexLe {α : Type} (rank : α → Nat) : List α → List α → Bool
  | [], _ => true
  | _ :: _, [] => false
  | a :: as, b :: bs =>
    if rank a < rank b then true else if rank b < rank a then false else lexLe rank as bs

end CanonJson
