/-!
# Code-point order — texts compared character by character

`before` is the strict lexicographic order of texts by code point, which is also the order of their
UTF-8 bytes.
-/

namespace LayeredViews.Text

/-- Strictly earlier in the order by code point. -/
def before (s t : String) : Bool :=
  decide (s < t)

theorem before_irrefl (s : String) : before s s = false :=
  decide_eq_false (String.lt_irrefl s)

end LayeredViews.Text
