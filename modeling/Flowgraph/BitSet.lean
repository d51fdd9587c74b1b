/-!
# Bit sets

A subset of `0, …, capacity - 1` as 64-bit words: element `i` is bit `i % 64` of word `i / 64`.
Insertion beyond the capacity and combining sets of different capacities are refused; the answer
is then `none`.

* `contains`: the members.
* `insert?`, `remove`, `union?`, `inter?`, `diff?`: the new set, and whether it differs.
* `toList`: the members in ascending order.
* `walk`, `Walk.next?`: the members one after the other.
-/

namespace Flowgraph

/-- A fixed-capacity set of naturals, 64 to a word. -/
structure BitSet where
  capacity : Nat
  words : List (BitVec 64)
  deriving DecidableEq

namespace BitSet

/-- The words needed for `capacity` bits. -/
def wordCount (capacity : Nat) : Nat := (capacity + 63) / 64

/-- The bit at position `i`, which may lie beyond the capacity. -/
def bit (s : BitSet) (i : Nat) : Bool := (s.words[i / 64]?.getD 0).getLsbD (i % 64)

/-- Whether `i` is a member; nothing beyond the capacity is. -/
def contains (s : BitSet) (i : Nat) : Bool := decide (i < s.capacity) && s.bit i

/-- The set without members. -/
def empty (capacity : Nat) : BitSet := ⟨capacity, List.replicate (wordCount capacity) 0⟩

/-- Remove every member. -/
def clear (s : BitSet) : BitSet := { s with words := s.words.map fun _ => 0 }

/-- Set every bit of every word, except those of the last word beyond the capacity. -/
def fill (s : BitSet) : BitSet :=
  let full := s.words.map fun _ => BitVec.allOnes 64
  if s.capacity % 64 = 0 then { s with words := full }
  else
    let last := BitVec.twoPow 64 (s.capacity % 64) - 1
    { s with words := full.modify (full.length - 1) fun _ => last }

/-- The set of everything below the capacity. -/
def full (capacity : Nat) : BitSet := (empty capacity).fill

/-- Put `i` in; beyond the capacity there is nothing to put it into. -/
def insert (s : BitSet) (i : Nat) : BitSet :=
  if i < s.capacity then
    { s with words := s.words.modify (i / 64) (· ||| BitVec.twoPow 64 (i % 64)) }
  else s

/-- Put `i` in, and say whether it is new; refused beyond the capacity. -/
def insert? (s : BitSet) (i : Nat) : Option (BitSet × Bool) :=
  if i < s.capacity then some (s.insert i, decide ((s.insert i).words ≠ s.words)) else none

/-- The set of the listed elements, refused if one lies beyond the capacity. -/
def ofList? (capacity : Nat) (bits : List Nat) : Option BitSet :=
  bits.foldlM (fun s i => (s.insert? i).map Prod.fst) (empty capacity)

/-- The set of the listed elements that lie below the capacity. -/
def ofList (capacity : Nat) (bits : List Nat) : BitSet := bits.foldl insert (empty capacity)

/-- Take `i` out. -/
def erase (s : BitSet) (i : Nat) : BitSet :=
  if i < s.capacity then
    { s with words := s.words.modify (i / 64) (· &&& ~~~BitVec.twoPow 64 (i % 64)) }
  else s

/-- Take `i` out, and say whether it was in. -/
def remove (s : BitSet) (i : Nat) : BitSet × Bool :=
  (s.erase i, decide ((s.erase i).words ≠ s.words))

/-- Combine two sets word by word, keeping the capacity of the first. -/
def combine (op : BitVec 64 → BitVec 64 → BitVec 64) (s t : BitSet) : BitSet :=
  { s with words := List.zipWith op s.words t.words }

/-- The members of either set. -/
def union (s t : BitSet) : BitSet := combine (· ||| ·) s t

/-- The members of both sets. -/
def inter (s t : BitSet) : BitSet := combine (· &&& ·) s t

/-- The members of the first set that are not members of the second. -/
def diff (s t : BitSet) : BitSet := combine (fun a b => a &&& ~~~b) s t

/-- A combination of two sets of one capacity, and whether it differs from the first. -/
def combine? (op : BitSet → BitSet → BitSet) (s t : BitSet) : Option (BitSet × Bool) :=
  if s.capacity = t.capacity then some (op s t, decide ((op s t).words ≠ s.words)) else none

/-- Put all members of the second set in, if it has the same capacity. -/
def union? : BitSet → BitSet → Option (BitSet × Bool) := combine? union

/-- Keep the members of the second set, if it has the same capacity. -/
def inter? : BitSet → BitSet → Option (BitSet × Bool) := combine? inter

/-- Take all members of the second set out, if it has the same capacity. -/
def diff? : BitSet → BitSet → Option (BitSet × Bool) := combine? diff

/-- Of one capacity, and every member of `s` is a member of `t`. -/
def isSubset (s t : BitSet) : Bool :=
  decide (s.capacity = t.capacity) && (s.diff t).words.all fun w => decide (w = 0)

/-- There is no member. -/
def isEmpty (s : BitSet) : Bool := s.words.all fun w => decide (w = 0)

/-- The positions of the bits that are set in one word, in ascending order. -/
def bitsOf (w : BitVec 64) : List Nat := (List.range 64).filter fun i => w.getLsbD i

/-- The number of ones among the lowest `width` bits of `n`. -/
def ones : Nat → Nat → Nat
  | 0, _ => 0
  | width + 1, n => n % 2 + ones width (n / 2)

/-- The number of bits that are set. -/
def count (s : BitSet) : Nat := s.words.foldr (fun w total => ones 64 w.toNat + total) 0

/-- The members in ascending order. -/
def toList (s : BitSet) : List Nat :=
  s.words.zipIdx.flatMap fun (w, k) => (bitsOf w).map (64 * k + ·)

/-! ### Walking through the members -/

/-- A walk stands at one of the words of a set: `rest` are the bits of that word that it has still
to give out, and `later` the words behind it. -/
structure Walk where
  word : Nat
  rest : BitVec 64
  later : List (BitVec 64)
  deriving DecidableEq

/-- A walk starts with all bits of the first word. -/
def walk (s : BitSet) : Walk := ⟨0, s.words.headD 0, s.words.tail⟩

/-- The lowest bit that is left, and the walk without it.  A word that has none left is passed
over. -/
def nextFrom (word : Nat) (rest : BitVec 64) (later : List (BitVec 64)) : Option (Nat × Walk) :=
  if rest = 0 then
    match later with
    | [] => none
    | w :: later => nextFrom (word + 1) w later
  else some (64 * word + rest.ctz.toNat, ⟨word, rest &&& (rest - 1), later⟩)

/-- The next member; none when the walk is over. -/
def Walk.next? (w : Walk) : Option (Nat × Walk) := nextFrom w.word w.rest w.later

/-- The members between braces, as `{0, 5}`. -/
def text (s : BitSet) : String := "\x7b" ++ ", ".intercalate (s.toList.map toString) ++ "\x7d"

end BitSet

end Flowgraph
