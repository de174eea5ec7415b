import SymbolicBytes.Proofs.Levels
import SymbolicBytes.Proofs.Trees
/-!
# Deciding at a depth

A walk that starts inside another value starts at a depth, and has as many levels fewer
(`levelsBelow`). `Machine.EndsWith` is such a walk as a run: at each level it goes to all values
directly inside, one deeper, and below the limit it gives up. Every walk is a finite run with one
outcome, the one that `Machine.concretizeWithin` computes (`endsWith_iff`).

All that the depth changes is whether the limit is met. A value that fits below the limit at two
depths is decided alike at both (`concretizeWithin_eq_of_height_lt`), and what does not meet the
limit at a depth does not at a smaller one; `decidedAtDepths` is the whole account.
-/

namespace SymbolicBytes

/-- The values directly inside a value are less deep. -/
theorem SymValue.height_lt_of_mem_inside (v : SymValue) : ∀ w ∈ v.inside, w.height < v.height := by
  cases v with
  | scalar _ | undef _ | poison _ | void => exact nofun
  | aggregate kind members => exact heights_le_iff.1 (Nat.le_refl _)
  | binary | cast | select | extract | insert =>
    simp only [inside, height, List.forall_mem_cons, List.not_mem_nil, false_implies, implies_true,
      and_true]
    omega
  | byte b =>
    obtain ⟨hparent, hindex⟩ := SymByte.height_le_iff.1 (Nat.le_refl b.height)
    simpa [inside, height] using ⟨hparent, hindex⟩
  | concat bytes ty =>
    rw [forall_mem_inside_concat]
    intro b hb
    exact SymByte.height_le_iff.1 (SymByte.heights_le_iff.1 (Nat.le_refl _) b hb)

namespace Machine

variable {machine : Machine} {v : SymValue} {depth : Nat}

/-! ## Levels that are left -/

/-- Beyond the limit no level is left. -/
theorem levelsBelow_of_lt (h : depthLimit < depth) : levelsBelow depth = 0 :=
  Nat.sub_eq_zero_of_le h

/-- Up to the limit there is one level more than one deeper. -/
theorem levelsBelow_of_le (h : depth ≤ depthLimit) :
    levelsBelow depth = levelsBelow (depth + 1) + 1 := by
  simp only [levelsBelow]
  omega

theorem levelsBelow_antitone {j k : Nat} (h : j ≤ k) : levelsBelow k ≤ levelsBelow j :=
  Nat.sub_le_sub_left h _

/-! ## Walks as runs -/

/-- What the walk from a value at a depth ends with: with giving up, beyond the limit, and otherwise
with what one level makes of the outcomes that the walks from the values directly inside end with,
one deeper. -/
inductive EndsWith (machine : Machine) : Nat → SymValue → Outcome Value → Prop where
  /-- beyond the limit the walk gives up at once -/
  | beyond {depth : Nat} {v : SymValue} (h : depthLimit < depth) :
    EndsWith machine depth v (.error .tooDeep)
  /-- up to the limit the walk goes one level on, to all values directly inside -/
  | level {depth : Nat} {v : SymValue} (decide : SymValue → Outcome Value) (h : depth ≤ depthLimit)
      (hinside : ∀ w ∈ v.inside, EndsWith machine (depth + 1) w (decide w)) :
    EndsWith machine depth v (machine.concretizeBy decide v)

/-- Every walk comes to an end, with one outcome: the run as a relation and the walk as a function
are the same. The depth grows with every level, and is bounded by the limit. -/
theorem endsWith_iff {r : Outcome Value} :
    machine.EndsWith depth v r ↔ machine.concretizeWithin (levelsBelow depth) v = r := by
  refine ⟨?_, ?_⟩
  · intro h
    induction h with
    | beyond h =>
      rw [levelsBelow_of_lt h]
      rfl
    | level decide h _ ih =>
      rw [levelsBelow_of_le h]
      exact concretizeBy_eq_of_inside ih
  · rintro rfl
    generalize hlevels : levelsBelow depth = levels
    induction levels generalizing depth v with
    | zero => exact .beyond (Nat.le_of_sub_eq_zero hlevels)
    | succ levels ih =>
      have hdepth : depth ≤ depthLimit := by
        simp only [levelsBelow] at hlevels
        omega
      rw [levelsBelow_of_le hdepth] at hlevels
      exact .level _ hdepth fun w _ => ih (Nat.succ.inj hlevels)

/-! ## Values that fit -/

/-- A value for which there are enough levels is decided alike with any more. The levels are never
looked at but to give up when there are none. -/
theorem concretizeWithin_eq_of_height_lt {levels more : Nat} (h : v.height < levels)
    (h' : v.height < more) :
    machine.concretizeWithin levels v = machine.concretizeWithin more v := by
  induction levels generalizing more v with
  | zero => cases h
  | succ levels ih =>
    cases more with
    | zero => cases h'
    | succ more =>
      refine concretizeBy_eq_of_inside fun w hw => ?_
      have hlow := v.height_lt_of_mem_inside w hw
      exact ih (Nat.lt_of_lt_of_le hlow (Nat.le_of_lt_succ h))
        (Nat.lt_of_lt_of_le hlow (Nat.le_of_lt_succ h'))

/-! ## What there is to know -/

/-- What is to be shown of deciding a value at all depths. -/
structure DecidedAtDepths (machine : Machine) (v : SymValue) : Prop where
  /-- at every depth the walk comes to an end, and with one outcome -/
  ends : ∀ depth r,
    machine.EndsWith depth v r ↔ machine.concretizeWithin (levelsBelow depth) v = r
  /-- unless the value is nested too deep at a depth, the outcome is that at every smaller one -/
  same : ∀ j k, j ≤ k →
    machine.concretizeWithin (levelsBelow k) v = .error .tooDeep ∨
      machine.concretizeWithin (levelsBelow k) v = machine.concretizeWithin (levelsBelow j) v
  /-- what it is decided as at a depth, it is decided as at every smaller one -/
  ok : ∀ j k d, j ≤ k → machine.concretizeWithin (levelsBelow k) v = .ok d →
    machine.concretizeWithin (levelsBelow j) v = .ok d
  /-- at the depths at which it does not reach below the limit, the outcome is the same -/
  fits : ∀ j k, j + v.height ≤ depthLimit → k + v.height ≤ depthLimit →
    machine.concretizeWithin (levelsBelow k) v = machine.concretizeWithin (levelsBelow j) v
  /-- a value nested too deep is malformed input, and the message names the limit -/
  reported : Fault.tooDeep.kind = .structural ∧
    Fault.tooDeep.message = "value nested deeper than 512 levels"

/-- At every depth the walk ends with one outcome, and all that the depth changes is whether the
limit is met. Going less deep into other values never hurts: what is decided at a depth is decided
alike at every smaller one, and a value that fits below the limit at two depths cannot tell them
apart. -/
theorem decidedAtDepths (machine : Machine) (v : SymValue) : machine.DecidedAtDepths v where
  ends _ _ := endsWith_iff
  same _ _ hjk := sameUnlessTooDeep_of_le (levelsBelow_antitone hjk) v
  ok _ _ _ hjk hd := concretizeWithin_eq_ok_of_le (levelsBelow_antitone hjk) hd
  fits j k hj hk := by
    apply concretizeWithin_eq_of_height_lt
    all_goals
      simp only [levelsBelow]
      omega
  reported := ⟨rfl, rfl⟩

/-- A struct around the result of no computation, which is one level, fits at the last depth but one
and at no later one. -/
example :
    (standard .standard).concretizeWithin (levelsBelow 511) (.aggregate (.record .struct) [.void]) =
        .ok (.aggregate (.record .struct) [.void]) ∧
      (standard .standard).concretizeWithin (levelsBelow 512)
        (.aggregate (.record .struct) [.void]) = .error .tooDeep := ⟨rfl, rfl⟩

end Machine

end SymbolicBytes
