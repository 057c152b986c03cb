/-!
# Text measured in octets

Offsets and column widths count the octets of a text's UTF-8 form. The order of UTF-8 octets is the
order of code points, so texts are compared by code point.
-/

namespace PatternTable.Text

/-- The number of octets of a text in UTF-8. -/
def octets (cs : List Char) : Nat :=
  cs.foldr (fun c n => c.utf8Size + n) 0

/-- The order of two texts by their UTF-8 octets, which is that of their code points. -/
def compareOctets : List Char → List Char → Ordering
  | [], [] => .eq
  | [], _ :: _ => .lt
  | _ :: _, [] => .gt
  | a :: as, b :: bs => (compare a.toNat b.toNat).then (compareOctets as bs)

end PatternTable.Text
