import LogSync.Proofs.BitmapWrites
import LogSync.Proofs.TomlNumbers
import LogSync.Proofs.WalkCounts
import LogSync.Scenario
import Mathlib.Data.List.Nodup

/-!
# What a scenario means

A scenario may be written in many ways: peers in any order, ranges split, joined, doubled, moved
from what a peer has to what it has announced, or run on behind the end of the core. All that it
means is which blocks of the core each peer has and wants, and who is connected. What is printed of
it depends on nothing else (`Scenario.report_of_meaning`): the counts are those of single blocks
(`CoreCounts.derive_congr`), and peers are found by their ids in whatever order they stand
(`Scenario.get?_ofList_peers`).
-/

namespace LogSync

/-! ## What is said -/

/-- Whether a block is in one of some ranges. -/
def BlockRange.anySpans (ranges : List BlockRange) (i : Nat) : Bool :=
  ranges.any fun r => r.start ≤ i && i < r.start + r.length

namespace PeerSpec

/-- Whether a peer is said to have a block, by either kind of ranges. -/
def has (s : PeerSpec) (i : Nat) : Bool := BlockRange.anySpans (s.owned ++ s.announced) i

/-- Whether a peer is said to want a block; it wants all if nothing is said. -/
def wishes (s : PeerSpec) (i : Nat) : Bool := s.wants.all fun ranges => BlockRange.anySpans ranges i

/-- Two peers are said to have and to want the same blocks below a length. -/
def AlikeBelow (length : Nat) (s t : PeerSpec) : Prop :=
  ∀ i < length, s.has i = t.has i ∧ s.wishes i = t.wishes i

instance (length : Nat) (s t : PeerSpec) : Decidable (s.AlikeBelow length t) :=
  inferInstanceAs (Decidable (∀ i < length, s.has i = t.has i ∧ s.wishes i = t.wishes i))

end PeerSpec

/-- The same is said of two peers, their name included. -/
structure NamedPeer.AlikeBelow (length : Nat) (p q : NamedPeer) : Prop where
  name : p.name = q.name
  connected : p.connected = q.connected
  spec : p.spec.AlikeBelow length q.spec

instance (length : Nat) (p q : NamedPeer) : Decidable (p.AlikeBelow length q) :=
  decidable_of_iff
    (p.name = q.name ∧ p.connected = q.connected ∧ p.spec.AlikeBelow length q.spec)
    ⟨fun h => ⟨h.1, h.2.1, h.2.2⟩, fun h => ⟨h.name, h.connected, h.spec⟩⟩

/-- Two scenarios mean the same: a core of the same length, and the same peers in any order. -/
structure Scenario.SameMeaning (s t : Scenario) : Prop where
  length : s.length = t.length
  localPeer : s.localPeer.AlikeBelow s.length t.localPeer
  there : ∀ p ∈ s.peers, ∃ q ∈ t.peers, p.AlikeBelow s.length q
  back : ∀ q ∈ t.peers, ∃ p ∈ s.peers, p.AlikeBelow s.length q

/-! ## Counts -/

/-- Two records say the same of the blocks below a length. -/
structure PeerRecord.AlikeBelow (length : Nat) (p q : PeerRecord) : Prop where
  has : ∀ i < length, p.has i = q.has i
  wishes : ∀ i < length, p.wishes i = q.wishes i

/-- The same peers have records that say the same of the blocks below a length. -/
def AlikeRemotes (length : Nat) (m n : SortedMap PeerId PeerRecord) : Prop :=
  ∀ id, Option.Rel (fun p q => p.connected = q.connected ∧ p.AlikeBelow length q)
    (m.get? id) (n.get? id)

theorem map_eq_of_rel {α β γ : Type} {related : α → β → Prop} {a : Option α} {b : Option β}
    (h : Option.Rel related a b) {f : α → γ} {g : β → γ}
    (hfg : ∀ p q, related p q → f p = g q) : a.map f = b.map g := by
  cases h with
  | none => rfl
  | some hpq => exact congrArg some (hfg _ _ hpq)

section
variable {length : Nat} {own own' : PeerRecord} {m n : SortedMap PeerId PeerRecord}
  (hown : own.AlikeBelow length own') (hremotes : AlikeRemotes length m n)
include hown hremotes

/-- If records that are alike agree on something, then it holds of some peer here and there. -/
theorem any_everyPeer_eq {f g : PeerRecord → Bool}
    (hfg : ∀ p q, p.AlikeBelow length q → f p = g q) :
    (everyPeer own m).any f = (everyPeer own' n).any g := by
  have hvalues : m.values.any f = n.values.any g := by
    rw [Bool.eq_iff_iff, SortedMap.any_values_iff, SortedMap.any_values_iff]
    refine exists_congr fun id => ?_
    rw [map_eq_of_rel (hremotes id) fun p q hpq => hfg p q hpq.2]
  show (f own || m.values.any f) = (g own' || n.values.any g)
  rw [hfg _ _ hown, hvalues]

section
variable {p q : PeerRecord} (hpq : p.AlikeBelow length q) {i : Nat} (hi : i < length)
include hi

/-- Whether anybody has a block does not depend on how the peers' blocks were written down. -/
theorem someoneHas_eq : someoneHas (everyPeer own m) i = someoneHas (everyPeer own' n) i :=
  any_everyPeer_eq hown hremotes fun _ _ h => h.has i hi

include hpq

/-- Nor does whether a peer could get it. -/
theorem couldGet_eq : p.couldGet (everyPeer own m) i = q.couldGet (everyPeer own' n) i := by
  unfold PeerRecord.couldGet
  rw [hpq.has i hi, hpq.wishes i hi, someoneHas_eq hown hremotes hi]

/-- Nor whether a peer could give it. -/
theorem couldGive_eq : p.couldGive (everyPeer own m) i = q.couldGive (everyPeer own' n) i := by
  have hsome : ((everyPeer own m).any fun r => r.couldGet (everyPeer own m) i)
      = (everyPeer own' n).any fun r => r.couldGet (everyPeer own' n) i :=
    any_everyPeer_eq hown hremotes fun _ _ h => couldGet_eq hown hremotes h hi
  unfold PeerRecord.couldGive
  rw [hpq.has i hi, hsome]

theorem misses_eq : p.misses (everyPeer own m) i = q.misses (everyPeer own' n) i := by
  unfold PeerRecord.misses
  rw [hpq.wishes i hi, someoneHas_eq hown hremotes hi]

end

/-- So peers that are alike below the length have the same counts, block by block. -/
theorem blockwise_eq {p q : PeerRecord} (hpq : p.AlikeBelow length q) :
    BlockCounts.blockwise (everyPeer own m) length p
      = BlockCounts.blockwise (everyPeer own' n) length q := by
  unfold BlockCounts.blockwise
  congr 1
  · exact countBelow_congr fun i hi => hpq.has i hi
  · exact countBelow_congr fun i hi => couldGet_eq hown hremotes hpq hi
  · exact countBelow_congr fun i hi => couldGive_eq hown hremotes hpq hi
  · exact countBelow_congr fun i hi => misses_eq hown hremotes hpq hi

/-- The counts of a core depend only on what is said of the blocks below its length, and on who is
connected. -/
theorem CoreCounts.derive_congr (hlength : length ≤ lastIndex) :
    derive length own m = derive length own' n := by
  -- the two walks may go by other pages and gaps, but they count the same blocks
  rw [derive_eq_blockwise hlength, derive_eq_blockwise hlength]
  unfold blockwise
  dsimp only
  congr 1
  · exact blockwise_eq hown hremotes hown
  · refine SortedMap.ext_get? fun id => ?_
    rw [SortedMap.get?_mapValues, SortedMap.get?_mapValues]
    refine map_eq_of_rel (hremotes id) fun p q hpq => ?_
    rw [blockwise_eq hown hremotes hpq.2, hpq.1]

end

/-! ## Ranges -/

/-- Ranges that are set one after the other set what any of them covers. -/
theorem Bitmap.get_foldl_setRange (ranges : List BlockRange) (b : Bitmap) (i : Nat) :
    (ranges.foldl (fun b r => b.setRange r true) b).get i
      = (b.get i || ranges.any (·.covers i)) := by
  induction ranges generalizing b with
  | nil => exact (Bool.or_false _).symm
  | cons r ranges ih =>
    rw [List.foldl_cons, ih, get_setRange, List.any_cons, ← Bool.or_assoc]
    cases r.covers i <;> simp

/-- Below the largest index a bitmap of ranges has the blocks that the ranges span. -/
theorem Bitmap.get_ofRanges (ranges : List BlockRange) {i : Nat} (hi : i < lastIndex) :
    (ofRanges ranges).get i = BlockRange.anySpans ranges i := by
  -- where a range is held back to the largest index, it is no shorter below it
  have hcovers (r : BlockRange) :
      r.covers i = (decide (r.start ≤ i) && decide (i < r.start + r.length)) := by
    show decide (r.start ≤ i ∧ i < min (r.start + r.length) lastIndex) = _
    simp only [Nat.lt_min, hi, and_true, Bool.decide_and]
  have hfold := get_foldl_setRange ranges ∅ i
  rw [get_empty, Bool.false_or] at hfold
  simp only [hcovers] at hfold
  exact hfold

namespace PeerSpec

variable {length : Nat} {s t : PeerSpec}

/-- The bitmap of some ranges has the blocks that the ranges span. -/
theorem any_bitmapOfSome (ranges : List BlockRange) {i : Nat} (hi : i < lastIndex) :
    (bitmapOfSome ranges).any (·.get i) = BlockRange.anySpans ranges i := by
  unfold bitmapOfSome
  cases ranges with
  | nil => rfl
  | cons r ranges => exact Bitmap.get_ofRanges (r :: ranges) hi

/-- A record has the blocks that its description says. -/
theorem has_record (s : PeerSpec) (connected : Bool) {i : Nat} (hi : i < lastIndex) :
    (s.record connected).has i = s.has i := by
  show ((bitmapOfSome s.owned).any (·.get i) || (bitmapOfSome s.announced).any (·.get i)) = _
  rw [any_bitmapOfSome _ hi, any_bitmapOfSome _ hi]
  exact List.any_append.symm

/-- A record wishes for the blocks that its description says. -/
theorem wishes_record (s : PeerSpec) (connected : Bool) {i : Nat} (hi : i < lastIndex) :
    (s.record connected).wishes i = s.wishes i := by
  show (s.wants.map Bitmap.ofRanges).all (·.get i) = _
  unfold wishes
  cases s.wants with
  | none => rfl
  | some ranges => exact Bitmap.get_ofRanges ranges hi

/-- Records are alike where what is said of the peers is. -/
theorem AlikeBelow.record (hlength : length ≤ lastIndex) (h : s.AlikeBelow length t)
    (connected connected' : Bool) :
    (s.record connected).AlikeBelow length (t.record connected') where
  has i hi := by
    have hlast : i < lastIndex := by omega
    rw [has_record s connected hlast, has_record t connected' hlast, (h i hi).1]
  wishes i hi := by
    have hlast : i < lastIndex := by omega
    rw [wishes_record s connected hlast, wishes_record t connected' hlast, (h i hi).2]

end PeerSpec

/-! ## Peers by their ids -/

namespace Scenario

variable {s t : Scenario}

/-- No two peers of a scenario have one id. -/
def IdsDiffer (s : Scenario) : Prop :=
  ∀ p ∈ s.peers, ∀ q ∈ s.peers, PeerId.ofName p.name = PeerId.ofName q.name → p = q

/-- The peer with an id. -/
def byId? (s : Scenario) (id : PeerId) : Option NamedPeer :=
  s.peers.find? fun p => PeerId.ofName p.name = id

theorem byId?_eq_some_iff (h : s.IdsDiffer) {id : PeerId} {p : NamedPeer} :
    s.byId? id = some p ↔ p ∈ s.peers ∧ PeerId.ofName p.name = id := by
  constructor
  · intro hfound
    exact ⟨List.mem_of_find?_eq_some hfound, of_decide_eq_true (List.find?_some hfound :)⟩
  · intro ⟨hp, hid⟩
    have hsome : (s.byId? id).isSome = true :=
      List.find?_isSome.2 ⟨p, hp, decide_eq_true hid⟩
    obtain ⟨q, hq⟩ := Option.isSome_iff_exists.1 hsome
    have hq_id : PeerId.ofName q.name = id := of_decide_eq_true (List.find?_some hq :)
    rw [hq, h q (List.mem_of_find?_eq_some hq) p hp (hq_id.trans hid.symm)]

/-- What the peers are put into a map with is found there under their ids. -/
theorem get?_ofList_peers {α : Type} [Inhabited α] (h : s.IdsDiffer) (f : NamedPeer → α)
    (id : PeerId) :
    (SortedMap.ofList (s.peers.map fun p => (PeerId.ofName p.name, f p))).get? id
      = (s.byId? id).map f := by
  have hvalue : ∀ e ∈ s.peers.map fun p => (PeerId.ofName p.name, f p),
      e.2 = ((s.byId? e.1).map f).getD default := by
    intro e he
    obtain ⟨p, hp, rfl⟩ := List.mem_map.1 he
    have hfound : s.byId? (PeerId.ofName p.name) = some p := (byId?_eq_some_iff h).2 ⟨hp, rfl⟩
    rw [hfound]
    rfl
  have hlisted : id ∈ (s.peers.map fun p => (PeerId.ofName p.name, f p)).map (·.1) ↔
      ∃ p ∈ s.peers, PeerId.ofName p.name = id := by
    rw [List.map_map, List.mem_map]
    rfl
  rw [SortedMap.get?_ofList (f := fun id => ((s.byId? id).map f).getD default) hvalue]
  cases hfound : s.byId? id with
  | some p =>
    have hp := (byId?_eq_some_iff h).1 hfound
    rw [if_pos (hlisted.2 ⟨p, hp⟩)]
    rfl
  | none =>
    rw [if_neg]
    · rfl
    · intro hmem
      obtain ⟨p, hp⟩ := hlisted.1 hmem
      rw [(byId?_eq_some_iff h).2 hp] at hfound
      contradiction

/-- Where two scenarios mean the same, so does what they say of a peer. -/
theorem SameMeaning.byId? (h : s.SameMeaning t) (hs : s.IdsDiffer) (ht : t.IdsDiffer)
    (id : PeerId) : Option.Rel (NamedPeer.AlikeBelow s.length) (s.byId? id) (t.byId? id) := by
  cases hp : s.byId? id with
  | some p =>
    obtain ⟨hmem, hid⟩ := (byId?_eq_some_iff hs).1 hp
    obtain ⟨q, hq, halike⟩ := h.there p hmem
    have hq_id : PeerId.ofName q.name = id := by rw [← halike.name, hid]
    rw [(byId?_eq_some_iff ht).2 ⟨hq, hq_id⟩]
    exact .some halike
  | none =>
    cases hq : t.byId? id with
    | none => exact .none
    | some q =>
      obtain ⟨hmem, hid⟩ := (byId?_eq_some_iff ht).1 hq
      obtain ⟨p, hp', halike⟩ := h.back q hmem
      have hp_id : PeerId.ofName p.name = id := by rw [halike.name, hid]
      rw [(byId?_eq_some_iff hs).2 ⟨hp', hp_id⟩] at hp
      contradiction

section
variable (h : s.SameMeaning t) (hs : s.IdsDiffer) (ht : t.IdsDiffer)
include h hs ht

/-- Scenarios of one meaning name the same peers. -/
theorem names_eq : s.names = t.names := by
  refine SortedMap.ext_get? fun id => ?_
  rw [names, names, get?_ofList_peers hs, get?_ofList_peers ht]
  exact map_eq_of_rel (h.byId? hs ht id) fun p q halike => halike.name

/-- Scenarios of one meaning have peers that are alike under the same ids. -/
theorem remotes_alike (hlength : s.length ≤ lastIndex) :
    AlikeRemotes s.length s.remotes t.remotes := by
  intro id
  rw [remotes, remotes, get?_ofList_peers hs, get?_ofList_peers ht]
  have hrel := h.byId? hs ht id
  generalize s.byId? id = p? at hrel
  generalize t.byId? id = q? at hrel
  cases hrel with
  | none => exact .none
  | some halike =>
    exact .some ⟨halike.connected, halike.spec.record hlength _ _⟩

theorem counts_eq (hlength : s.length ≤ lastIndex) : s.counts = t.counts := by
  have hlocal := h.localPeer.record hlength false false
  have hremotes := remotes_alike h hs ht hlength
  rw [counts, counts, CoreCounts.derive_congr hlocal hremotes hlength, h.length]

end

/-! ## Scenarios that are read -/

theorem read_eq_ok_iff {text : String} :
    read text = .ok s ↔
      (Toml.read? text).bind ofEntries? = some s ∧ repeatedName? [] s.peers = none := by
  unfold read
  cases (Toml.read? text).bind ofEntries? with
  | none => simp
  | some s' =>
    dsimp only
    cases hrepeated : repeatedName? [] s'.peers with
    | some name =>
      refine iff_of_false (fun h => by contradiction) ?_
      intro ⟨hsame, hnone⟩
      rw [← Option.some.inj hsame, hrepeated] at hnone
      contradiction
    | none =>
      rw [Except.ok.injEq, Option.some_inj]
      refine (and_iff_left_of_imp ?_).symm
      intro hsame
      rw [← hsame, hrepeated]

/-- The length of a scenario that is read is an integer of a document. -/
theorem length_le_of_read {text : String} (h : read text = .ok s) : s.length ≤ lastIndex := by
  obtain ⟨entries, hentries, hs⟩ := Option.bind_eq_some_iff.1 (read_eq_ok_iff.1 h).1
  simp only [ofEntries?, Option.bind_eq_bind, Option.bind_eq_some_iff] at hs
  obtain ⟨v, hv, length, hlength, localPeer, -, peers, -, hs⟩ := hs
  obtain rfl := Option.some.inj hs
  have hbound : length < Toml.Reader.integerBound := Toml.lt_of_read hentries hv hlength
  exact Nat.le_trans (Nat.le_of_lt hbound) (by decide)

/-- Names among which none is repeated differ from each other and from those seen before. -/
theorem nodup_of_repeatedName? {seen : List String} {peers : List NamedPeer}
    (h : repeatedName? seen peers = none) :
    (peers.map (·.name)).Nodup ∧ ∀ p ∈ peers, p.name ∉ seen := by
  induction peers generalizing seen with
  | nil => exact ⟨List.nodup_nil, fun p hp => by contradiction⟩
  | cons p peers ih =>
    unfold repeatedName? at h
    split at h
    · contradiction
    · next hnew =>
      obtain ⟨hnodup, hunseen⟩ := ih h
      have hfirst : p.name ∉ peers.map (·.name) := by
        intro hmem
        obtain ⟨q, hq, hname⟩ := List.mem_map.1 hmem
        exact hunseen q hq (hname ▸ List.mem_cons_self)
      refine ⟨List.nodup_cons.2 ⟨hfirst, hnodup⟩, ?_⟩
      intro q hq
      rcases List.mem_cons.1 hq with hq | hq
      · rw [hq]
        exact hnew
      · intro hseen
        exact hunseen q hq (List.mem_cons_of_mem _ hseen)

/-- Where different names have different ids, so have different peers. -/
theorem idsDiffer_of_read {text : String} (h : read text = .ok s)
    (hids : ∀ p ∈ s.peers, ∀ q ∈ s.peers,
      PeerId.ofName p.name = PeerId.ofName q.name → p.name = q.name) : s.IdsDiffer := by
  intro p hp q hq hid
  have hnodup := (nodup_of_repeatedName? (read_eq_ok_iff.1 h).2).1
  exact List.inj_on_of_nodup_map hnodup hp hq (hids p hp q hq hid)

/-- **What is printed of a scenario depends on its meaning only.** If two texts are read as
scenarios that mean the same, and different names of peers in them have different ids, then the
tables are the same, and so is the JSON. -/
theorem report_of_meaning {text text' : String} {s t : Scenario} (hs : read text = .ok s)
    (ht : read text' = .ok t) (hmeaning : s.SameMeaning t)
    (hids : ∀ p ∈ s.peers, ∀ q ∈ s.peers,
      PeerId.ofName p.name = PeerId.ofName q.name → p.name = q.name) :
    s.table = t.table ∧ s.json = t.json := by
  have hs_ids : s.IdsDiffer := idsDiffer_of_read hs hids
  have ht_ids : t.IdsDiffer := by
    -- the names are the same ones
    refine idsDiffer_of_read ht fun q hq q' hq' hid => ?_
    obtain ⟨p, hp, halike⟩ := hmeaning.back q hq
    obtain ⟨p', hp', halike'⟩ := hmeaning.back q' hq'
    rw [← halike.name, ← halike'.name] at hid ⊢
    exact hids p hp p' hp' hid
  have hcounts : s.counts = t.counts :=
    counts_eq hmeaning hs_ids ht_ids (length_le_of_read hs)
  have hnames : s.names = t.names := names_eq hmeaning hs_ids ht_ids
  constructor
  · unfold table sortedRemotes
    rw [hcounts, hnames, hmeaning.length]
  · unfold json
    rw [hcounts]

/-- Two peers in either order; ranges are split, moved, and run on behind the end, and one peer
wants all in so many words. -/
theorem report_of_meaning_of_rewritten :
    let text := "length = 4\n[local]\nhave = [[0, 3]]\n" ++
      "[[peers]]\nname = 'a'\nhave = [[0, 2]]\n[[peers]]\nname = 'b'\n"
    let text' := "length = 4\n[local]\nhave = [[1, 2]]\npre_have = [[0, 1]]\n" ++
      "[[peers]]\nname = 'b'\nwant = [[0, 9]]\n[[peers]]\nname = 'a'\nhave = [[1, 1], [0, 1]]\n"
    ∃ s t, read text = .ok s ∧ read text' = .ok t ∧ s.SameMeaning t ∧
      (∀ p ∈ s.peers, ∀ q ∈ s.peers,
        PeerId.ofName p.name = PeerId.ofName q.name → p.name = q.name) ∧
      s.table = t.table ∧ s.json = t.json := by
  intro text text'
  let s : Scenario := {
    length := 4
    localPeer := { owned := [⟨0, 3⟩] }
    peers := [{ name := "a", spec := { owned := [⟨0, 2⟩] } }, { name := "b" }] }
  let t : Scenario := {
    length := 4
    localPeer := { owned := [⟨1, 2⟩], announced := [⟨0, 1⟩] }
    peers := [{ name := "b", spec := { wants := some [⟨0, 9⟩] } },
      { name := "a", spec := { owned := [⟨1, 1⟩, ⟨0, 1⟩] } }] }
  have hs : read text = .ok s := read_eq_ok_iff.2 (by decide +kernel)
  have ht : read text' = .ok t := read_eq_ok_iff.2 (by decide +kernel)
  have hmeaning : s.SameMeaning t :=
    { length := rfl
      localPeer := by decide
      there := by decide
      back := by decide }
  have hids : ∀ p ∈ s.peers, ∀ q ∈ s.peers,
      PeerId.ofName p.name = PeerId.ofName q.name → p.name = q.name := by decide +kernel
  exact ⟨s, t, hs, ht, hmeaning, hids, report_of_meaning hs ht hmeaning hids⟩

end Scenario

end LogSync
