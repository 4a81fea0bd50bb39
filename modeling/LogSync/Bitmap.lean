import LogSync.Counting
import LogSync.SortedMap

/-!
# Sparse bitmaps

A set of block indices over a very large index space, of which most sets fill a small window. Bits
live in pages that are allocated the first time a bit in them is set, so the pages of a bitmap say
where it has ever held something, and `pageCount` is its cost. Bit `i` is bit `i % 32` of word
`i / 32`.

Indices have 64 bits. Words that line up with those of a bitmap may be stored past the largest
index, where no index reaches them. A search that meets them there answers an index that has wrapped
around (`pageStart`). Wherever else an index is put together, the result is taken to fit
(`WordsFit`).

`Bitmap.get` is the view of a bitmap. Allocation is a second, observable part of its state: two
bitmaps with the same bits may differ in their pages, and `sameBits` is the comparison that
ignores such pages.
-/

namespace LogSync

/-- The largest index. It is where a range that runs over the end stops, and what a search for an
unset bit answers when it runs out of indices. -/
def lastIndex : Nat := 0xFFFFFFFFFFFFFFFF

/-- The end of the range that starts at `start`, held back to the largest index. -/
def rangeEnd (start length : Nat) : Nat := min (start + length) lastIndex

/-- A run of blocks. -/
structure BlockRange where
  start : Nat
  length : Nat
deriving DecidableEq, Repr, Inhabited

/-- The first index after the run. -/
def BlockRange.stop (r : BlockRange) : Nat := rangeEnd r.start r.length

/-- Whether the run has no blocks. -/
def BlockRange.isEmpty (r : BlockRange) : Bool := r.length == 0

/-- Thirty-two neighbouring bits, the lowest index in the lowest bit. -/
abbrev Word := BitVec 32

/-- The number of set bits of a word. -/
def Word.count (w : Word) : Nat := countBelow w.getLsbD 32

/-- The word whose first `n` bits are set. -/
def Word.firstBits (n : Nat) : Word := BitVec.allOnes 32 >>> (32 - n)

/-- The number of bits of a page: 1024 words. -/
def pageBits : Nat := 32768

/-- One page of a bitmap. -/
abbrev Page := BitVec pageBits

namespace Page

/-- The page on which the bits in `[start, stop)` are set. -/
def window (start stop : Nat) : Page :=
  (BitVec.allOnes pageBits <<< min start pageBits) &&&
    (BitVec.allOnes pageBits >>> (pageBits - stop))

/-- The word at a word offset. -/
def word (p : Page) (w : Nat) : Word := p.extractLsb' (32 * w) 32

/-- Replaces the word at a word offset. -/
def setWord (p : Page) (w : Nat) (bits : Word) : Page :=
  (p &&& ~~~((BitVec.allOnes 32).setWidth pageBits <<< (32 * w))) |||
    (bits.setWidth pageBits <<< (32 * w))

/-- The number of set bits in `[start, stop)`, counted word by word from `start` on. -/
def count (p : Page) (start stop : Nat) : Nat :=
  let shown : Page := (p &&& window start stop) >>> min start pageBits
  if shown = 0 then 0
  else sumOver (fun w => (shown.word w).count) (List.range ((min stop pageBits - start + 31) / 32))

/-- The least set bit at or after `start`: the first word with a set bit, then the bit in it. -/
def firstSet (p : Page) (start : Nat) : Option Nat :=
  let shown : Page := p >>> min start pageBits
  if shown = 0 then none
  else
    (firstIn (fun w => shown.word w != 0) 0 1024).bind fun w =>
      (firstIn (shown.word w).getLsbD 0 32).map fun b => start + (32 * w + b)

end Page

/-- A set of block indices, held in pages. -/
structure Bitmap where
  pages : SortedMap Nat Page
deriving DecidableEq

namespace Bitmap

/-- The bitmap without set bits or pages. -/
def empty : Bitmap := ⟨∅⟩

instance : EmptyCollection Bitmap := ⟨empty⟩
instance : Inhabited Bitmap := ⟨empty⟩

/-- A page, all unset if it is not allocated. -/
def page (b : Bitmap) (k : Nat) : Page := (b.pages.get? k).getD 0

/-- Whether the bit of an index is set. -/
def get (b : Bitmap) (index : Nat) : Bool := (b.page (index / pageBits)).getLsbD (index % pageBits)

/-- The word that holds the bits `32 * w` to `32 * w + 31`. -/
def word (b : Bitmap) (w : Nat) : Word := (b.page (w / 1024)).word (w % 1024)

/-- Replaces a page by its change, allocating it if need be. -/
def touchPage (b : Bitmap) (k : Nat) (f : Page → Page) : Bitmap := ⟨b.pages.upsert k 0 f⟩

/-- Sets or unsets one bit; says whether that changed it. A bit that has the value already is left
alone, so that unsetting never allocates. -/
def set (b : Bitmap) (index : Nat) (value : Bool) : Bitmap × Bool :=
  if b.get index = value then (b, false)
  else
    let bit := Page.window (index % pageBits) (index % pageBits + 1)
    (b.touchPage (index / pageBits) fun p => if value then p ||| bit else p &&& ~~~bit, true)

/-- The bits of a page that lie in `[start, stop)`. -/
def pageWindow (k start stop : Nat) : Page :=
  Page.window (start - k * pageBits) (stop - k * pageBits)

/-- Sets every bit in `[start, stop)`, allocating the pages that the range meets. -/
def fill (b : Bitmap) (start stop : Nat) : Bitmap :=
  if start < stop then
    let first := start / pageBits
    (List.range' first ((stop - 1) / pageBits + 1 - first)).foldl
      (fun b k => b.touchPage k (· ||| pageWindow k start stop)) b
  else b

/-- Unsets every bit in `[start, stop)`; pages that are not allocated stay so. -/
def clear (b : Bitmap) (start stop : Nat) : Bitmap :=
  ⟨b.pages.mapValues fun k p => p &&& ~~~pageWindow k start stop⟩

/-- Sets or unsets every bit of a range. -/
def setRange (b : Bitmap) (r : BlockRange) (value : Bool) : Bitmap :=
  if value then b.fill r.start r.stop else b.clear r.start r.stop

/-- Replaces a whole word, allocating its page. -/
def setWord (b : Bitmap) (w : Nat) (bits : Word) : Bitmap :=
  b.touchPage (w / 1024) (·.setWord (w % 1024) bits)

/-- Words that are written from `start` on end within the index space. -/
def WordsFit (start : Nat) (words : List Word) : Prop := start + 32 * words.length ≤ lastIndex + 1

/-- Sets or unsets the 32 bits from `start` on, one by one. -/
def setBits (b : Bitmap) (start : Nat) (bits : Word) : Bitmap :=
  (List.range 32).foldl (fun b i => (b.set (start + i) (bits.getLsbD i)).1) b

/-- Writes words over the bits from `start` on. Words that line up with the bitmap's own replace
them and allocate their pages, past the largest index too. Others are written bit by bit, and are
taken to end within the index space (`WordsFit`), as the index of each bit has to fit into 64
bits. -/
def insertWords (b : Bitmap) (start : Nat) (words : List Word) : Bitmap :=
  words.zipIdx.foldl
    (fun b (bits, k) =>
      if start % 32 = 0 then b.setWord (start / 32 + k) bits else b.setBits (start + 32 * k) bits)
    b

/-- The bitmap of words that begin at `start`. -/
def ofWords (start : Nat) (words : List Word) : Bitmap := empty.insertWords start words

/-- The bitmap of the blocks of some ranges. -/
def ofRanges (ranges : List BlockRange) : Bitmap :=
  ranges.foldl (fun b r => b.setRange r true) empty

/-- The index at which a page begins. An index has 64 bits and wraps around, as it does where
overflow is not checked for: a page past the largest index seems to begin at a small one. -/
def pageStart (k : Nat) : Nat := k * pageBits % (lastIndex + 1)

/-- The least set index at or after `start` in a list of pages. -/
def firstSetAmong (start : Nat) : List (Nat × Page) → Option Nat
  | [] => none
  | (k, p) :: rest =>
    match p.firstSet (start - k * pageBits) with
    | some i => some (pageStart k + i)
    | none => firstSetAmong start rest

/-- The least set index at or after `start`. If there is none, a bit that is stored past the largest
index is taken for one, under the index that it wraps around to. -/
def firstSet (b : Bitmap) (start : Nat) : Option Nat := firstSetAmong start b.pages.toList

/-- The least unset index at or after `start` in a list of pages, held back to the largest index.
A page that is missing from the list ends the search. -/
def firstUnsetAmong (start : Nat) : List (Nat × Page) → Nat
  | [] => start
  | (k, p) :: rest =>
    if k < start / pageBits then firstUnsetAmong start rest
    else if k > start / pageBits then start
    else
      match (~~~p).firstSet (start % pageBits) with
      | some i => k * pageBits + i
      | none =>
        let next := min ((k + 1) * pageBits) lastIndex
        if next = lastIndex then next else firstUnsetAmong next rest

/-- The least unset index at or after `start`; `lastIndex` if that is past the last page. -/
def firstUnset (b : Bitmap) (start : Nat) : Nat := firstUnsetAmong start b.pages.toList

/-- The number of set bits in a range. -/
def count (b : Bitmap) (r : BlockRange) : Nat :=
  sumOver (fun (k, p) => p.count (r.start - k * pageBits) (r.stop - k * pageBits)) b.pages.toList

/-- The number of set bits. -/
def size (b : Bitmap) : Nat := sumOver (fun p => p.count 0 pageBits) b.pages.values

/-- Whether no bit is set. -/
def isEmpty (b : Bitmap) : Bool := b.pages.values.all (· == 0)

/-- The number of allocated pages. -/
def pageCount (b : Bitmap) : Nat := b.pages.size

/-- Whether two bitmaps hold the same bits, whatever pages they have allocated for them. -/
def sameBits (a b : Bitmap) : Bool :=
  (a.pages.keys ++ b.pages.keys).all fun k => a.page k == b.page k

/-- A one-line description: the cost and the size of the bitmap. -/
def describe (b : Bitmap) : String :=
  s!"Bitfield \x7b pages: {b.pageCount}, ones: {b.size} \x7d"

end Bitmap

end LogSync
