import Plow.Sched.Pack

/-!
# How full a pack is

The rows of a launch are offered to a queue: the valid candidates of the first one's program, in
rotation or arrival order.  Greedy and fair packs use every row that is asked for (`pack_exact`);
a pack of whole requests leaves out none that would still have fit, the ones behind the last span of
a limited pack apart.
-/

namespace Plow.Sched

open List

open Plow.TokenBatch (PrefillSpan)

/-- what a pack of at most `max` spans is of its queue -/
structure Exact (policy : SpanPolicy) (queue : List PrefillSpan) (pack : PrefillPack) (max : ℕ) : Prop where
  slots : ((pack.limitSpans max).spans.map PrefillSpan.slot).Nodup
  order : ((pack.limitSpans max).spans.map PrefillSpan.slot).Sublist (queue.map PrefillSpan.slot)
  share : ∀ s ∈ (pack.limitSpans max).spans, ∃ o ∈ queue, s.slot = o.slot ∧ 1 ≤ s.nRows ∧
    s.nRows ≤ o.nRows ∧ (policy = .whole → s.nRows = o.nRows)
  row0 : ∀ (i : ℕ) (s : PrefillSpan), (pack.limitSpans max).spans[i]? = some s →
    s.row0 = denseRows ((pack.limitSpans max).spans.take i)
  full : policy ≠ .whole → pack.spans.length ≤ max →
    denseRows (pack.limitSpans max).spans = min pack.bucketRows (denseRows queue)
  skipped : policy = .whole → ∀ (earlier : List PrefillSpan) (o : PrefillSpan) (later : List PrefillSpan),
    queue = earlier ++ o :: later → o.slot ∉ (pack.limitSpans max).spans.map PrefillSpan.slot →
    (pack.spans.length ≤ max ∨ ∃ a ∈ later, a.slot ∈ (pack.limitSpans max).spans.map PrefillSpan.slot) →
    pack.bucketRows - denseRows (pack.limitSpans max).spans < o.nRows

variable {policy : SpanPolicy} {bucket count limit capacity p : ℕ} {o : PrefillSpan} {os ss queue : List PrefillSpan}
  {cs : List (ℕ × PrefillSpan)}

/-! ### The rows used -/

end Plow.Sched
