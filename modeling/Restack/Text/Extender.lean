import Restack.Text.RunLengths

set_option autoImplicit false

namespace Restack.Text

/-- Code points with the property Grapheme_Extend of Unicode 17.0, which are drawn as part of the
character before them. -/
def extenders : RunLengths :=
  [768, 111, 275, 6, 263, 44, 1, 0, 1, 1, 1, 1, 1, 0, 72, 10, 48, 20, 16, 0, 101, 6, 2, 5, 2, 1, 1,
   3, 35, 0, 30, 26, 91, 10, 58, 8, 9, 0, 24, 3, 1, 8, 1, 2, 1, 4, 43, 2, 59, 8, 42, 23, 1, 31, 55,
   0, 1, 0, 4, 7, 4, 0, 3, 6, 10, 1, 29, 0, 58, 0, 1, 0, 2, 3, 8, 0, 9, 0, 10, 1, 26, 0, 2, 1, 57,
   0, 4, 1, 4, 1, 2, 2, 3, 0, 30, 1, 3, 0, 11, 1, 57, 0, 4, 4, 1, 1, 4, 0, 20, 1, 22, 5, 1, 0, 58,
   0, 1, 1, 1, 3, 8, 0, 7, 2, 10, 1, 30, 0, 59, 0, 1, 0, 12, 0, 9, 0, 40, 0, 3, 0, 55, 0, 1, 2, 5,
   2, 1, 3, 7, 1, 11, 1, 29, 0, 58, 0, 2, 1, 1, 0, 3, 2, 1, 3, 7, 1, 11, 1, 28, 1, 57, 1, 1, 0, 2,
   3, 8, 0, 9, 0, 10, 1, 29, 0, 72, 0, 4, 0, 2, 2, 1, 0, 8, 0, 81, 0, 2, 6, 12, 7, 98, 0, 2, 8, 11,
   6, 73, 1, 27, 0, 1, 0, 1, 0, 55, 13, 1, 4, 1, 1, 5, 10, 1, 35, 9, 0, 102, 3, 1, 5, 1, 1, 2, 1,
   25, 1, 4, 2, 16, 3, 13, 0, 2, 1, 6, 0, 15, 0, 703, 2, 946, 3, 28, 2, 29, 1, 30, 1, 64, 1, 1, 6,
   8, 0, 2, 10, 9, 0, 45, 2, 1, 0, 117, 1, 34, 0, 118, 2, 4, 1, 9, 0, 6, 2, 219, 1, 2, 0, 58, 0, 1,
   6, 1, 0, 1, 0, 2, 7, 6, 9, 2, 0, 48, 45, 2, 11, 20, 3, 48, 9, 4, 2, 38, 8, 12, 1, 32, 3, 2, 5,
   56, 0, 1, 1, 3, 0, 1, 4, 56, 7, 2, 1, 152, 2, 1, 12, 1, 6, 4, 0, 6, 0, 3, 1, 198, 63, 524, 0,
   195, 32, 3070, 2, 141, 0, 96, 31, 554, 5, 105, 1, 30164, 3, 1, 9, 32, 1, 80, 1, 272, 0, 3, 0, 4,
   0, 25, 1, 5, 0, 151, 1, 26, 17, 13, 0, 38, 7, 25, 10, 1, 0, 44, 2, 48, 0, 2, 3, 2, 1, 2, 0, 36,
   0, 67, 5, 2, 1, 2, 1, 12, 0, 8, 0, 47, 0, 51, 0, 1, 2, 2, 1, 5, 1, 1, 0, 42, 1, 8, 0, 238, 0, 2,
   0, 4, 0, 20272, 0, 737, 15, 16, 15, 366, 1, 605, 0, 226, 0, 149, 4, 1670, 2, 1, 1, 5, 3, 40, 2,
   4, 0, 165, 1, 573, 3, 65, 4, 317, 1, 77, 5, 70, 10, 49, 3, 123, 0, 54, 14, 41, 0, 2, 1, 10, 2,
   49, 3, 2, 1, 7, 0, 61, 2, 36, 4, 1, 7, 62, 0, 12, 1, 52, 8, 1, 0, 8, 3, 2, 0, 95, 2, 2, 3, 6, 0,
   2, 0, 157, 0, 3, 7, 21, 1, 57, 1, 1, 0, 1, 0, 12, 0, 9, 0, 14, 6, 3, 4, 67, 0, 2, 5, 1, 0, 2, 0,
   1, 2, 4, 2, 1, 0, 14, 1, 85, 7, 2, 2, 1, 0, 23, 0, 81, 0, 2, 5, 1, 0, 2, 0, 1, 1, 1, 1, 235, 0,
   2, 3, 6, 1, 1, 1, 27, 1, 85, 7, 2, 0, 1, 1, 106, 0, 1, 0, 2, 7, 101, 0, 1, 0, 2, 3, 1, 4, 259, 8,
   1, 1, 245, 0, 10, 3, 4, 0, 144, 3, 2, 1, 4, 0, 32, 9, 40, 5, 2, 3, 8, 0, 9, 5, 2, 2, 46, 12, 1,
   1, 198, 0, 1, 2, 1, 0, 201, 6, 1, 5, 1, 0, 82, 21, 2, 6, 1, 1, 1, 1, 122, 5, 3, 0, 1, 1, 1, 6, 1,
   0, 72, 1, 3, 0, 1, 0, 347, 1, 11, 1, 52, 4, 5, 2, 23, 0, 5349, 0, 6, 14, 11464, 11, 3, 2, 2496,
   4, 59, 6, 1048, 0, 63, 3, 81, 0, 11, 1, 19627, 1, 4705, 45, 2, 22, 542, 4, 3, 5, 8, 7, 2, 6, 30,
   3, 148, 2, 1979, 54, 4, 49, 8, 0, 14, 0, 22, 4, 1, 14, 1360, 6, 1, 16, 2, 6, 1, 1, 1, 4, 100, 0,
   160, 6, 375, 0, 61, 3, 508, 3, 254, 1, 243, 0, 2, 0, 7, 1, 5, 0, 474, 6, 109, 6, 792277, 95, 128,
   239]

def isExtender (c : Char) : Bool := extenders.contains c.toNat

theorem isExtender_iff (c : Char) :
    isExtender c = true ↔ ∃ r ∈ extenders.ranges, r.1 ≤ c.toNat ∧ c.toNat ≤ r.2 :=
  extenders.contains_iff c.toNat

end Restack.Text
