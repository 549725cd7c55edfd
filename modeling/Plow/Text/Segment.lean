import Plow.Lib.Viterbi

/-!
# Word segmentation by a linear-chain CRF

A fragment's characters are given node scores by the features around them, the best sequence of tags
is decoded from the last character to the first, and each tag that starts a word cuts there. A merge
pass then joins words of the merge dictionary.

Scores are exact.  A `CrfSegmenter` has the shape that its loader checks: a row of weights for each
feature, the first of which every character has, and a weight for each pair of tags.
-/

namespace Plow.Segment
open Lib List

structure CrfSegmenter where
  features : List Char → Option ℕ
  w : List ℚ
  nFeature : ℕ
  nTag : ℕ
  /-- the tag starts a word -/
  starts : List Bool
  unigram : List (List Char)
  merge : List (List Char)
  norm : Char → Option (List Char)
  wordMin : ℕ
  wordMax : ℕ
  wordFeature : Bool
  nTag_pos : 0 < nTag
  nFeature_pos : 0 < nFeature
  w_length : w.length = nFeature * nTag + nTag * nTag
  features_lt : ∀ key f, features key = some f → f < nFeature
  starts_length : starts.length = nTag

def NO_WORD : List Char := "**noWord".toList

namespace CrfSegmenter

variable (s : CrfSegmenter) {node : List (List ℚ)}

/-! ### Scores -/

/-- `get_slice_str`: nothing unless the nodes from `start` lie inside the fragment -/
def slice (nodes : List (List Char)) (start : ℤ) (len : ℕ) : Option (List Char) :=
  if 0 ≤ start ∧ start.toNat < nodes.length ∧ start.toNat + len ≤ nodes.length then
    some ((nodes.drop start.toNat).take len).flatten
  else none

def word (w : Option (List Char)) : Option (List Char) := w.filter s.unigram.elem

def lens : List ℕ := (List.range' s.wordMin (s.wordMax + 1 - s.wordMin)).reverse

/-- the texts of the features of a character, in the order in which they are looked up -/
def keysAt (i : ℕ) (nodes : List (List Char)) : List (List Char) :=
  let n := nodes.length
  let at' (j : ℕ) := nodes.getD j []
  let dot := ['.']
  let c := at' i
  ["c.".toList ++ c] ++
    (if 0 < i then ["c-1.".toList ++ at' (i - 1), "c-1c.".toList ++ at' (i - 1) ++ dot ++ c] else []) ++
    (if i + 1 < n then ["c1.".toList ++ at' (i + 1), "cc1.".toList ++ c ++ dot ++ at' (i + 1)] else []) ++
    (if 1 < i then
      ["c-2.".toList ++ at' (i - 2), "c-2c-1.".toList ++ at' (i - 2) ++ dot ++ at' (i - 1)] else []) ++
    (if i + 2 < n then ["c2.".toList ++ at' (i + 2)] else []) ++
    if ¬ s.wordFeature then []
    else
      let preIn := s.lens.map fun (l : ℕ) => s.word (slice nodes ((i : ℤ) - l + 1) l)
      let postIn := s.lens.map fun (l : ℕ) => s.word (slice nodes i l)
      let preEx := s.lens.map fun (l : ℕ) => s.word (slice nodes ((i : ℤ) - l) l)
      let postEx := s.lens.map fun (l : ℕ) => s.word (slice nodes ((i : ℤ) + 1) l)
      let show' (w : Option (List Char)) := w.getD NO_WORD
      preIn.filterMap (·.map ("w-1.".toList ++ ·)) ++
        postIn.filterMap (·.map ("w1.".toList ++ ·)) ++
        preEx.flatMap (fun a => postIn.map fun b => "ww.l.".toList ++ show' a ++ ['*'] ++ show' b) ++
        preIn.flatMap (fun a => postEx.map fun b => "ww.r.".toList ++ show' a ++ ['*'] ++ show' b)

def featuresAt (i : ℕ) (nodes : List (List Char)) : List ℕ :=
  0 :: (s.keysAt i nodes).filterMap s.features

def nodes (frag : List Char) : List (List Char) := frag.map fun c => (s.norm c).getD [c]

/-- the node scores of a fragment, a row for each character -/
def emission (frag : List Char) : List (List ℚ) :=
  let nodes := s.nodes frag
  (List.range nodes.length).map fun i =>
    (List.range s.nTag).map fun t =>
      ((s.featuresAt i nodes).map fun f => s.w.getD (f * s.nTag + t) 0).sum

/-- tag `a` followed by tag `b` -/
def edge (a b : ℕ) : ℚ :=
  let back := s.w.length - s.nTag * s.nTag
  1 + s.w.getD (back + b * s.nTag + a) 0

/-! ### Decoding -/

/-- a row of `best` and `prev` from the row of the next character -/
def bestRow (next : List (ℚ × ℕ)) (node : List ℚ) : List (ℚ × ℕ) :=
  (List.range s.nTag).map fun y =>
    lastMax (fun yp => (next.getD yp (0, 0)).1 + node.getD y 0 + s.edge y yp) s.nTag 0

/-- `best` and `prev`, filled from the last character to the first -/
def viterbi : List (List ℚ) → List (List (ℚ × ℕ))
  | [] => []
  | [node] => [(List.range s.nTag).map fun y => (node.getD y 0, 0)]
  | node :: rest =>
    let rows := viterbi rest
    s.bestRow (rows.headD []) node :: rows

/-- the tags along `prev`, from this tag of the first character -/
def follow : List (List (ℚ × ℕ)) → ℕ → List ℕ
  | [], _ => []
  | row :: rows, tag => tag :: follow rows (row.getD tag (0, 0)).2

def tags (node : List (List ℚ)) : List ℕ :=
  let rows := s.viterbi node
  follow rows (firstMax (fun y => ((rows.headD []).getD y (0, 0)).1) s.nTag)

def put (words : List (List Char)) (c : Char) (begins : Bool) : List (List Char) :=
  if begins then words ++ [[c]] else words.dropLast ++ [words.getLast?.getD [] ++ [c]]

def crfWords (frag : List Char) : List (List Char) :=
  ((frag.zip (s.tags (s.emission frag))).zipIdx).foldl
    (fun words q => put words q.1.1 (q.2 = 0 || s.starts.getD q.1.2 false)) []

/-! ### The merge pass -/

/-- runs of `m` words from the `i`th on -/
def mergeRuns (m : ℕ) (sent : List (List Char)) (i : ℕ) : List (List Char) :=
  if sent.length < m ∨ sent.length - m < i ∨ m < 2 then sent
  else
    let run := (sent.drop i).take m
    if s.merge.elem run.flatten && !run.all s.merge.elem then
      mergeRuns m (sent.take i ++ run.flatten :: sent.drop (i + m)) (i + 1)
    else mergeRuns m sent (i + 1)
  termination_by sent.length - i
  decreasing_by
  · simp only [List.length_append, List.length_take, List.length_cons, List.length_drop]
    omega
  · omega

def mergeWords (sent : List (List Char)) : List (List Char) :=
  if s.merge = [] then sent else [7, 6, 5, 4, 3, 2].foldl (fun sent m => s.mergeRuns m sent 0) sent

/-! ### The tags are the best ones -/

def layers (node : List (List ℚ)) : List (ℕ → ℚ) := node.map fun row y => row.getD y 0

theorem getD_map_range {β : Type} (f : ℕ → β) (d : β) {n y : ℕ} (hy : y < n) :
    ((List.range n).map f).getD y d = f y := by
  rw [getD_eq_getElem?_getD, getElem?_map, getElem?_range hy]
  rfl

/-- along `prev` runs the best path from each tag, and `best` is its score -/
theorem viterbi_best (hne : node ≠ []) {y : ℕ} (hy : y < s.nTag) :
    BestFrom s.edge s.nTag (layers node) y (follow (s.viterbi node) y) ∧
      (((s.viterbi node).headD []).getD y (0, 0)).1 =
        pathScore s.edge (layers node) (follow (s.viterbi node) y) := by
  induction node generalizing y with
  | nil => exact absurd rfl hne
  | cons row rest ih =>
    cases rest with
    | nil =>
      refine ⟨BestFrom.single s.edge _ hy, ?_⟩
      show (((List.range s.nTag).map fun y => (row.getD y 0, 0)).getD y (0, 0)).1 = _
      rw [getD_map_range _ _ hy]
      show row.getD y 0 = row.getD y 0 + (0 + 0)
      rw [add_zero, add_zero]
    | cons row' rest =>
      have ih (i : ℕ) (hi : i < s.nTag) := ih (cons_ne_nil _ _) hi
      generalize hn : row' :: rest = next at ih
      have hnext : layers next ≠ [] := by rw [← hn]; exact cons_ne_nil _ _
      have hv : s.viterbi (row :: next) =
          s.bestRow ((s.viterbi next).headD []) row :: s.viterbi next := by rw [← hn]; rfl
      -- what a step compares is the score of the path that goes on with each tag
      have hf : ∀ i < s.nTag, (((s.viterbi next).headD []).getD i (0, 0)).1 + row.getD y 0 + s.edge y i =
          row.getD y 0 + (s.edge y i + pathScore s.edge (layers next) (follow (s.viterbi next) i)) := by
        intro i hi
        rw [(ih i hi).2]
        ring
      rw [hv]
      show BestFrom _ _ _ y (y :: follow (s.viterbi next) ((s.bestRow _ row).getD y (0, 0)).2) ∧
        ((s.bestRow _ row).getD y (0, 0)).1 =
          pathScore _ _ (y :: follow (s.viterbi next) ((s.bestRow _ row).getD y (0, 0)).2)
      rw [bestRow, getD_map_range _ _ hy]
      obtain ⟨hmax, hval⟩ := lastMax_spec
        (fun yp => (((s.viterbi next).headD []).getD yp (0, 0)).1 + row.getD y 0 + s.edge y yp)
        0 s.nTag_pos
      generalize lastMax
        (fun yp => (((s.viterbi next).headD []).getD yp (0, 0)).1 + row.getD y 0 + s.edge y yp)
        s.nTag 0 = q at hmax hval ⊢
      have hb := (ih q.2 hmax.lt).1
      have hscore : pathScore s.edge (layers (row :: next)) (y :: follow (s.viterbi next) q.2) =
          row.getD y 0 + (s.edge y q.2 +
            pathScore s.edge (layers next) (follow (s.viterbi next) q.2)) := pathScore_cons hb.head
      refine ⟨BestFrom.step hnext hy (fun i hi => (ih i hi).1) ⟨hmax.lt, fun j hj => ?_, fun j hj he => ?_⟩, ?_⟩
      · have := hmax.le j hj
        rwa [hf j hj, hf q.2 hmax.lt] at this
      · apply hmax.last j hj
        rw [hf j hj, hf q.2 hmax.lt]
        exact he
      · rw [hval, hscore]
        exact hf q.2 hmax.lt

theorem tags_optimal (hne : node ≠ []) : Optimal s.edge s.nTag (layers node) (s.tags node) := by
  have hne' : layers node ≠ [] := fun h => hne (map_eq_nil_iff.mp h)
  refine BestFrom.optimal hne' (fun i hi => (s.viterbi_best hne hi).1) ?_
  have hf := firstMax_spec (fun y => (((s.viterbi node).headD []).getD y (0, 0)).1) s.nTag_pos
  refine ⟨hf.lt, fun j hj => ?_, fun j hj he => hf.first j hj ?_⟩
  · have := hf.le j hj
    rwa [(s.viterbi_best hne hj).2, (s.viterbi_best hne hf.lt).2] at this
  · rw [(s.viterbi_best hne hj).2, (s.viterbi_best hne hf.lt).2]
    exact he

theorem emission_length (frag : List Char) : (s.emission frag).length = frag.length := by
  simp only [emission, nodes, length_map, length_range]

/-! ### The words are the fragment, cut -/

/-- words that are not empty and make this text -/
structure Cut (text : List Char) (words : List (List Char)) : Prop where
  flatten : words.flatten = text
  nonempty : [] ∉ words

theorem Cut.put {text : List Char} {words : List (List Char)} (h : Cut text words) (c : Char)
    (begins : Bool) : Cut (text ++ [c]) (put words c begins) := by
  cases begins with
  | true =>
    refine ⟨?_, fun hm => ?_⟩
    · show (words ++ [[c]]).flatten = _
      rw [flatten_append, h.flatten]
      rfl
    · obtain hm | hm := mem_append.mp hm
      · exact h.nonempty hm
      · cases mem_singleton.mp hm
  | false =>
    have hlast : words.dropLast.flatten ++ words.getLast?.getD [] = text := by
      rw [← h.flatten]
      cases hw : words.getLast? with
      | none =>
        rw [getLast?_eq_none_iff.mp hw]
        rfl
      | some w =>
        obtain ⟨ws, rfl⟩ := getLast?_eq_some_iff.mp hw
        rw [dropLast_concat, flatten_append]
        simp only [Option.getD_some, flatten_cons, flatten_nil, append_nil]
    refine ⟨?_, fun hm => ?_⟩
    · show (words.dropLast ++ [words.getLast?.getD [] ++ [c]]).flatten = _
      rw [flatten_append, ← hlast]
      simp only [flatten_cons, flatten_nil, append_nil, append_assoc]
    · obtain hm | hm := mem_append.mp hm
      · exact h.nonempty ((dropLast_sublist _).subset hm)
      · exact append_ne_nil_of_right_ne_nil _ (cons_ne_nil c [])
          (mem_singleton.mp hm).symm

theorem crfWords_cut (frag : List Char) : Cut frag (s.crfWords frag) := by
  have run (qs : List ((Char × ℕ) × ℕ)) (text : List Char) (words : List (List Char))
      (h : Cut text words) : Cut (text ++ qs.map (·.1.1)) (qs.foldl
        (fun words q => put words q.1.1 (q.2 = 0 || s.starts.getD q.1.2 false)) words) := by
    induction qs generalizing text words with
    | nil => rwa [map_nil, append_nil]
    | cons q qs ih =>
      have := ih _ _ (h.put q.1.1 (q.2 = 0 || s.starts.getD q.1.2 false))
      rwa [append_assoc] at this
  have hlen : frag.length ≤ (s.tags (s.emission frag)).length := by
    cases frag with
    | nil => exact Nat.zero_le _
    | cons c frag =>
      have hne : s.emission (c :: frag) ≠ [] :=
        ne_nil_of_length_pos ((s.emission_length _).symm ▸ Nat.succ_pos _)
      have := (s.tags_optimal hne).path.length
      rw [layers, length_map, s.emission_length] at this
      exact le_of_eq this.symm
  have h := run ((frag.zip (s.tags (s.emission frag))).zipIdx) [] [] ⟨rfl, not_mem_nil⟩
  rw [nil_append] at h
  have he : ((frag.zip (s.tags (s.emission frag))).zipIdx).map (·.1.1) = frag := by
    have h1 : (fun q : (Char × ℕ) × ℕ => q.1.1) = Prod.fst ∘ Prod.fst := rfl
    rw [h1, ← map_map, zipIdx_map_fst, map_fst_zip hlen]
  rwa [he] at h

/-! ### Merging joins adjacent words -/

def Join (sent out : List (List Char)) : Prop :=
  ∃ a run b, run ≠ [] ∧ sent = a ++ (run ++ b) ∧ out = a ++ run.flatten :: b

abbrev Joined : List (List Char) → List (List Char) → Prop := Relation.ReflTransGen Join

theorem Join.flatten {sent out : List (List Char)} (h : Join sent out) :
    out.flatten = sent.flatten := by
  obtain ⟨a, run, b, -, rfl, rfl⟩ := h
  simp only [flatten_append, flatten_cons]

theorem Joined.flatten {sent out : List (List Char)} (h : Joined sent out) :
    out.flatten = sent.flatten := by
  induction h with
  | refl => rfl
  | tail _ hj ih => rw [hj.flatten, ih]

theorem mergeRuns_joined (m : ℕ) (sent : List (List Char)) (i : ℕ) :
    Joined sent (s.mergeRuns m sent i) := by
  induction sent, i using mergeRuns.induct s m with
  | case1 sent i h =>
    rw [mergeRuns, if_pos h]
  | case2 sent i h run hr ih =>
    rw [mergeRuns, if_neg h, if_pos hr]
    refine .head ⟨sent.take i, run, sent.drop (i + m), ?_, ?_, rfl⟩ ih
    · obtain ⟨h1, h2, h3⟩ : ¬ sent.length < m ∧ ¬ sent.length - m < i ∧ ¬ m < 2 := by
        simpa only [not_or] using h
      apply ne_nil_of_length_pos
      rw [length_take, length_drop]
      omega
    · rw [← drop_drop, take_append_drop, take_append_drop]
  | case3 sent i h run hr ih =>
    rw [mergeRuns, if_neg h, if_neg hr]
    exact ih

theorem mergeWords_joined (sent : List (List Char)) : Joined sent (s.mergeWords sent) := by
  have passes (ms : List ℕ) (sent : List (List Char)) :
      Joined sent (ms.foldl (fun sent m => s.mergeRuns m sent 0) sent) := by
    induction ms generalizing sent with
    | nil => exact .refl
    | cons m ms ih => exact (s.mergeRuns_joined m sent 0).trans (ih _)
  unfold mergeWords
  split
  · exact .refl
  · exact passes _ _

theorem segmentation {frag : List Char} (hne : frag ≠ []) :
    (∀ node : List (List ℚ), node.length = frag.length →
      Optimal s.edge s.nTag (layers node) (s.tags node)) ∧ Cut frag (s.crfWords frag) ∧
    ∀ sent, Joined sent (s.mergeWords sent) ∧ (s.mergeWords sent).flatten = sent.flatten := by
  refine ⟨fun node hl => ?_, s.crfWords_cut frag, fun sent => ?_⟩
  · exact s.tags_optimal (ne_nil_of_length_pos (hl ▸ length_pos_of_ne_nil hne))
  · have h := s.mergeWords_joined sent
    exact ⟨h, h.flatten⟩

/-- one feature, two tags, the second of which starts a word -/
def plain : CrfSegmenter where
  features := fun _ => none
  w := [0, 1, 0, 0, 0, 0]
  nFeature := 1
  nTag := 2
  starts := [false, true]
  unigram := []
  merge := []
  norm := fun _ => none
  wordMin := 2
  wordMax := 6
  wordFeature := true
  nTag_pos := by decide
  nFeature_pos := by decide
  w_length := rfl
  features_lt := nofun
  starts_length := rfl

theorem segmentation_plain : Cut "ab".toList (plain.crfWords "ab".toList) ∧
    Optimal plain.edge 2 (layers (plain.emission "ab".toList))
      (plain.tags (plain.emission "ab".toList)) :=
  have h := @segmentation plain "ab".toList (by decide)
  ⟨h.2.1, h.1 _ (plain.emission_length _)⟩

end CrfSegmenter

end Plow.Segment
