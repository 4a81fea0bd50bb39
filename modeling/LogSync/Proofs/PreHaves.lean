import LogSync.Proofs.Mirroring
import LogSync.Proofs.TrackerSteps

/-!
# What becomes of pre-have messages

A message in which a peer says what it has of a core carries words that cover a run of blocks, from
its own start on. Several of them may come for one core, over several runs. Read as fragments of one
bitmap they ought to add up: of every block the last message that covers it decides
(`PreHaveMessage.lastSaid`).

The engine makes a bitmap of each message alone and puts it in place of what the peer had announced
before (`Run.preHaves_eq`), so blocks that only earlier messages cover are lost. What is recorded
agrees with the fragments if and only if each block that they announce lies within the last one
(`Run.last_fragment_is_all_that_stays`).
-/

namespace LogSync

/-! ## What is said -/

namespace PreHaveMessage

/-- Whether the words of a message cover a block. -/
def covers (m : PreHaveMessage) (i : Nat) : Bool :=
  decide (m.start ≤ i ∧ i < m.start + 32 * m.words.length)

/-- What the words of a message say of a block that they cover. -/
def bit (m : PreHaveMessage) (i : Nat) : Bool := wordsBit m.words (i - m.start)

/-- What some messages, the last one first, say of a block: the bit of the last message that covers
it, if one does. -/
def lastSaid (messages : List PreHaveMessage) (i : Nat) : Option Bool :=
  (messages.find? (·.covers i)).map (·.bit i)

end PreHaveMessage

namespace Engine

/-- The message that an input brings of a core from a peer, if the core is, or will be, tracked in
the given namespace. -/
def fragment? (e : Engine) (ns : Namespace) (key : DiscoveryKey) (p : PeerId) :
    Input → Option PreHaveMessage
  | .preHaves q m =>
    if q = p ∧ m.key = key ∧ (e.trackedIn? m.key).getD m.ns = ns ∧ e.namespaces.contains ns then
      some m
    else none
  | _ => none

/-- Whether a block is recorded as one that a peer has announced. -/
def hasAnnounced (e : Engine) (ns : Namespace) (key : DiscoveryKey) (p : PeerId) (i : Nat) : Bool :=
  ((e.core ns key).record p).preHaves.any (·.get i)

end Engine

/-- The messages of a peer about a core that have reached a namespace, the last one first. -/
def Run.fragments {s : Settings} (ns : Namespace) (key : DiscoveryKey) (p : PeerId) :
    Run s → List PreHaveMessage
  | begin _ _ => []
  | handle before _ _ input =>
    (before.engine.fragment? ns key p input).toList ++ before.fragments ns key p

/-! ## Operations on a core -/

namespace CoreOp

/-- What an operation announces that a peer has, if it does. -/
def announces? (p : PeerId) : CoreOp → Option Bitmap
  | setPreHaves q bits => if q = p then some bits else none
  | _ => none

/-- Only a message changes what a peer has announced, and it takes the place of all before. -/
theorem preHaves_apply (op : CoreOp) (core : CoreTracker) (p : PeerId) :
    ((op.apply core).record p).preHaves = (op.announces? p).or (core.record p).preHaves := by
  cases op with
  | attach snapshot => exact (core.declared_attach snapshot p).1
  | setPreHaves q bits =>
    show ((core.updatePeer q (·.setPreHaves bits)).record p).preHaves = _
    rw [CoreTracker.record_updatePeer, announces?]
    by_cases hp : p = q
    · rw [if_pos hp, if_pos hp.symm]
      rfl
    · rw [if_neg hp, if_neg (Ne.symm hp)]
      rfl
  | addWants q ranges =>
    show ((core.updatePeer q fun r => ranges.foldl (·.addWants ·) r).record p).preHaves = _
    rw [CoreTracker.record_updatePeer]
    split
    · next hp =>
      subst hp
      exact List.foldlRecOn (motive := fun r : PeerRecord => r.preHaves = (core.record p).preHaves)
        ranges _ rfl fun r hr range _ => hr
    · rfl
  | addPeer q =>
    simp only [apply, CoreTracker.addPeer]
    split
    · rfl
    · show ((core.updatePeer q id).record p).preHaves = _
      rw [CoreTracker.record_updatePeer]
      split
      · next hp => rw [hp]; rfl
      · rfl
  | event event => exact (core.declared_onEvent event p).1
  | read =>
    rw [apply, CoreTracker.counts_tracker]
    rfl

/-- Tending a core announces nothing. -/
theorem preHaves_foldl_of_tends {ops : List CoreOp} (hops : ∀ op ∈ ops, op.tends = true)
    (core : CoreTracker) (p : PeerId) :
    ((ops.foldl apply core).record p).preHaves = (core.record p).preHaves := by
  refine List.foldlRecOn
    (motive := fun core' : CoreTracker => (core'.record p).preHaves = (core.record p).preHaves)
    ops _ rfl fun core' hcore' op hop => ?_
  have hnone : op.announces? p = none := by
    have htends := hops op hop
    cases op
    case setPreHaves q bits => contradiction
    all_goals rfl
  rw [preHaves_apply, hnone, Option.none_or, hcore']

end CoreOp

/-! ## Messages -/

namespace Engine

variable {e : Engine} (ns : Namespace) (key : DiscoveryKey) (p : PeerId)

/-- What an input announces of a core is the bitmap of the one message that it brings. -/
theorem announces?_opOn? (input : Input) :
    (e.opOn? ns key input).bind (·.announces? p)
      = (e.fragment? ns key p input).map fun m => .ofWords m.start m.words := by
  unfold opOn?
  cases htouched : e.touched? input with
  | none =>
    cases input with
    | preHaves q m =>
      have huntracked := Option.map_eq_none_iff.1 htouched
      have hnone : e.fragment? ns key p (.preHaves q m) = none := by
        refine if_neg ?_
        rintro ⟨-, -, rfl, htracked⟩
        rw [SortedMap.contains, huntracked] at htracked
        contradiction
      rw [hnone]
      rfl
    | _ => rfl
  | some touch =>
    show (if touch.ns = ns ∧ touch.key = key then some touch.op else none).bind _ = _
    cases touches_of_touched htouched with
    | preHaves q m ht =>
      have htracked : e.namespaces.contains ((e.trackedIn? m.key).getD m.ns) = true := by
        rw [SortedMap.contains, ht]
        rfl
      by_cases hplace : (e.trackedIn? m.key).getD m.ns = ns ∧ m.key = key
      · obtain ⟨rfl, rfl⟩ := hplace
        by_cases hp : q = p <;> simp [fragment?, CoreOp.announces?, hp, htracked]
      · have hother : ¬ (q = p ∧ m.key = key ∧ (e.trackedIn? m.key).getD m.ns = ns ∧
            e.namespaces.contains ns) := fun h => hplace ⟨h.2.2.1, h.2.1⟩
        rw [if_neg hplace, fragment?, if_neg hother]
        rfl
    | _ => split <;> rfl

/-- A message takes the place of all that its peer had announced of the core. -/
theorem preHaves_handle (roles : Roles) (now : Nat) (input : Input) :
    (((e.handle roles now input).1.core ns key).record p).preHaves
      = ((e.fragment? ns key p input).map fun m => .ofWords m.start m.words).or
          ((e.core ns key).record p).preHaves := by
  obtain ⟨ops, hops, hcore⟩ := e.core_handle roles now input ns key
  rw [hcore, List.foldl_append, CoreOp.preHaves_foldl_of_tends hops, ← announces?_opOn?]
  cases e.opOn? ns key input with
  | none => rfl
  | some op => exact op.preHaves_apply (e.core ns key) p

end Engine

/-! ## Runs -/

namespace Run

variable {s : Settings}

section
variable (r : Run s) (ns : Namespace) (key : DiscoveryKey) (p : PeerId)

/-- What a peer has announced is what its last message says. -/
theorem preHaves_eq :
    ((r.engine.core ns key).record p).preHaves
      = (r.fragments ns key p).head?.map fun m => .ofWords m.start m.words := by
  induction r with
  | begin roles now =>
    have hnone : (begin roles now : Run s).engine.core ns key = .ofKey key :=
      Engine.core_begin s roles now ns key
    rw [hnone]
    rfl
  | handle before roles now input ih =>
    have hstep := before.engine.preHaves_handle ns key p roles now input
    rw [ih] at hstep
    rw [engine, hstep, fragments]
    cases before.engine.fragment? ns key p input <;> rfl

theorem hasAnnounced_eq (i : Nat) :
    r.engine.hasAnnounced ns key p i
      = (r.fragments ns key p).head?.any fun m => m.covers i && m.bit i := by
  rw [Engine.hasAnnounced, preHaves_eq, Option.any_map]
  congr 1
  funext m
  exact Bitmap.get_ofWords m.start i m.words

end

/-- **Of several fragments only the last one stays.** Whatever messages a peer has sent about a
core, before the core was there or after, from whatever starts: the blocks that are recorded are
those of the last message alone. So the record shows of every block that is covered what the last
message that covers it says, if and only if each block that is announced in this way lies within
the very last message. -/
theorem last_fragment_is_all_that_stays (r : Run s) (ns : Namespace) (key : DiscoveryKey)
    (p : PeerId) :
    (∀ i, r.engine.hasAnnounced ns key p i
        = (r.fragments ns key p).head?.any fun m => m.covers i && m.bit i) ∧
      ((∀ i bit, PreHaveMessage.lastSaid (r.fragments ns key p) i = some bit →
          r.engine.hasAnnounced ns key p i = bit) ↔
        ∀ i, PreHaveMessage.lastSaid (r.fragments ns key p) i = some true →
          (r.fragments ns key p).head?.any (·.covers i) = true) := by
  have hrecorded (i : Nat) := r.hasAnnounced_eq ns key p i
  refine ⟨hrecorded, ?_, ?_⟩
  · intro hagrees i hsaid
    have hbit := hagrees i true hsaid
    rw [hrecorded] at hbit
    obtain ⟨m, hlast, hm⟩ := (Option.any_eq_true _ _).1 hbit
    exact (Option.any_eq_true _ _).2 ⟨m, hlast, (Bool.and_eq_true_iff.1 hm).1⟩
  · intro hwithin i bit hsaid
    rw [hrecorded]
    cases hmessages : r.fragments ns key p with
    | nil =>
      rw [hmessages] at hsaid
      contradiction
    | cons m earlier =>
      rw [hmessages] at hsaid hwithin
      show (m.covers i && m.bit i) = bit
      cases hcovers : m.covers i with
      | true =>
        have hfind : (m :: earlier).find? (·.covers i) = some m := List.find?_cons_of_pos hcovers
        rw [PreHaveMessage.lastSaid, hfind] at hsaid
        exact Option.some.inj hsaid
      | false =>
        -- a block outside the last message is not recorded, so it must not have been announced
        cases bit with
        | false => rfl
        | true =>
          have hlast : m.covers i = true := hwithin i hsaid
          rw [hcovers] at hlast
          contradiction

/-- A peer announces block 0 of a core, and then, in a second fragment, block 32. -/
theorem first_fragment_is_lost :
    let allowed : Roles := fun _ _ => .allowed
    let first : Run {} :=
      .handle (.begin allowed 0) allowed 0 (.preHaves default ⟨default, .auth, 0, [1]⟩)
    let r : Run {} := .handle first allowed 0 (.preHaves default ⟨default, .auth, 32, [1]⟩)
    ¬ ∀ i bit, PreHaveMessage.lastSaid (r.fragments .auth default default) i = some bit →
      r.engine.hasAnnounced .auth default default i = bit := by
  intro allowed first r hagrees
  have hsaid : PreHaveMessage.lastSaid (r.fragments .auth default default) 0 = some true := by
    decide +kernel
  have hlost : r.engine.hasAnnounced .auth default default 0 = false := by decide +kernel
  exact Bool.false_ne_true (hlost.symm.trans (hagrees 0 true hsaid))

end Run

end LogSync
