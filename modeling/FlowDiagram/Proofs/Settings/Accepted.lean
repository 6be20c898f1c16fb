import FlowDiagram.Settings.Basic
import Mathlib.Algebra.Order.Ring.Rat
import Mathlib.Data.Nat.Cast.Order.Ring
/-!
# Accepted distances

Settings are doubles, and each measure has a bound that it must keep. A layout is exact when
it is computed with rational numbers instead, so the same bounds are stated for these.
Paddings have no bound; that they are not negative is a condition of its own.
-/

namespace FlowDiagram

open Layout

namespace Settings

/-- The measure of a key in some spacing. -/
def Key.measure {α : Type} (s : Spacing α) : Key → α
  | .rankSeparation => s.rankSeparation
  | .nodeSeparation => s.nodeSeparation
  | .nodeWidth => s.nodeWidth
  | .nodeHeight => s.nodeHeight
  | .paddingLeft => s.paddingLeft
  | .paddingRight => s.paddingRight
  | .paddingTop => s.paddingTop
  | .paddingBottom => s.paddingBottom

/-- A rational number keeps a bound. -/
def Bound.Holds : Bound → ℚ → Prop
  | .nonNegative, x => 0 ≤ x
  | .positive, x => 0 < x
  | .free, _ => True

/-- Every measure keeps its bound. -/
def Accepted (s : Spacing ℚ) : Prop := ∀ key : Key, key.bound.Holds (key.measure s)

/-- The customary distances as rational numbers. -/
def customaryDistances : Spacing ℚ where
  rankSeparation := Key.customary .rankSeparation
  nodeSeparation := Key.customary .nodeSeparation
  nodeWidth := Key.customary .nodeWidth
  nodeHeight := Key.customary .nodeHeight
  paddingLeft := Key.customary .paddingLeft
  paddingRight := Key.customary .paddingRight
  paddingTop := Key.customary .paddingTop
  paddingBottom := Key.customary .paddingBottom

theorem measure_customaryDistances (key : Key) :
    key.measure customaryDistances = key.customary := by
  cases key <;> rfl

theorem accepted_customaryDistances : Accepted customaryDistances := by
  intro key
  rw [measure_customaryDistances]
  cases key with
  | rankSeparation | nodeSeparation => exact Nat.cast_nonneg _
  | nodeWidth | nodeHeight => exact Nat.cast_pos.mpr (by decide)
  | paddingLeft | paddingRight | paddingTop | paddingBottom => exact trivial

end Settings

namespace Layout

/-- Paddings add to a box on each side. -/
structure Spacing.Padded (s : Spacing ℚ) : Prop where
  left : 0 ≤ s.paddingLeft
  right : 0 ≤ s.paddingRight
  top : 0 ≤ s.paddingTop
  bottom : 0 ≤ s.paddingBottom

theorem Spacing.padded_customaryDistances : Settings.customaryDistances.Padded where
  left := Nat.cast_nonneg _
  right := Nat.cast_nonneg _
  top := Nat.cast_nonneg _
  bottom := Nat.cast_nonneg _

/-- Distances with which no box has a negative size and no distance leads back. -/
structure Spacing.Sound (s : Spacing ℚ) : Prop extends s.Padded where
  ranks : 0 ≤ s.rankSeparation
  nodes : 0 ≤ s.nodeSeparation
  width : 0 < s.nodeWidth
  height : 0 < s.nodeHeight

theorem Spacing.sound_of_accepted {s : Spacing ℚ} (accepted : Settings.Accepted s)
    (padded : s.Padded) : s.Sound where
  toPadded := padded
  ranks := accepted .rankSeparation
  nodes := accepted .nodeSeparation
  width := accepted .nodeWidth
  height := accepted .nodeHeight

end Layout

end FlowDiagram
