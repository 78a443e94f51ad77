import Mathlib.Data.List.DropRight
import Mathlib.Data.List.TakeWhile
import Mathlib.Tactic.SplitIfs

/-!
# Words

A list with separators in it splits into words, which are not empty.  A reader of the words skips
separators, reads a word, and skips separators again.

* `words` : the words of a list;
* `words_eq_nil`, `words_eq_cons` : the words, from what a reader finds first.
-/

namespace MicroKernel

variable {α : Type*} [DecidableEq α] {sep : α} {c l : List α}

/-- The non-empty lists between the separators. -/
def words (sep : α) (l : List α) : List (List α) := (l.splitOn sep).filter (· ≠ [])

@[simp] theorem words_nil : words sep [] = [] := by
  rw [words, List.splitOn_nil]
  rfl

theorem words_cons_self : words sep (sep :: l) = words sep l := by
  have hsplit : (sep :: l).splitOn sep = [].splitOn sep ++ l.splitOn sep :=
    List.splitOn_append_cons_self [] l
  rw [words, hsplit, List.splitOn_nil, List.filter_append]
  rfl

theorem words_append_cons (hc : sep ∉ c) (hne : c ≠ []) :
    words sep (c ++ sep :: l) = c :: words sep l := by
  rw [words, List.splitOn_append_cons_self, List.splitOn_eq_singleton hc, List.filter_append,
    List.filter_cons_of_pos (by simpa using hne), List.filter_nil]
  rfl

theorem words_of_not_mem (hc : sep ∉ c) (hne : c ≠ []) : words sep c = [c] := by
  rw [words, List.splitOn_eq_singleton hc, List.filter_cons_of_pos (by simpa using hne),
    List.filter_nil]

/-! ### Reading a word -/

/-- The list from the first element on that is no separator. -/
def dropSeps (sep : α) (l : List α) : List α := l.dropWhile fun x => x = sep

/-- The elements before the first separator. -/
def takeWord (sep : α) (l : List α) : List α := l.takeWhile fun x => x ≠ sep

/-- The list from the first separator on. -/
def dropWord (sep : α) (l : List α) : List α := l.dropWhile fun x => x ≠ sep

theorem takeWord_append_dropWord (sep : α) (l : List α) : takeWord sep l ++ dropWord sep l = l :=
  List.takeWhile_append_dropWhile

theorem length_takeWord (sep : α) (l : List α) :
    (takeWord sep l).length + (dropWord sep l).length = l.length := by
  rw [← List.length_append, takeWord_append_dropWord]

theorem takeWord_prefix (sep : α) (l : List α) : takeWord sep l <+: l := List.takeWhile_prefix _

theorem not_mem_takeWord : sep ∉ takeWord sep l := by
  intro hmem
  have hsep := List.mem_takeWhile_imp hmem
  simp at hsep

theorem dropWord_eq (sep : α) (l : List α) :
    dropWord sep l = [] ∨ ∃ l', dropWord sep l = sep :: l' := by
  have hhead := List.head?_dropWhile_not (fun x => decide (x ≠ sep)) l
  change match (dropWord sep l).head? with | some x => _ | none => _ at hhead
  cases hdrop : dropWord sep l with
  | nil => exact Or.inl rfl
  | cons x l' =>
    rw [hdrop] at hhead
    have hx : x = sep := by simpa using hhead
    exact Or.inr ⟨l', by rw [hx]⟩

theorem dropSeps_suffix (sep : α) (l : List α) : dropSeps sep l <:+ l := List.dropWhile_suffix _

theorem dropSeps_dropSeps : dropSeps sep (dropSeps sep l) = dropSeps sep l :=
  List.dropWhile_idempotent _ _

theorem dropWord_suffix (sep : α) (l : List α) : dropWord sep l <:+ l := List.dropWhile_suffix _

theorem dropSeps_head : ∀ x ∈ (dropSeps sep l).head?, x ≠ sep := by
  intro x hx
  have hhead := List.head?_dropWhile_not (fun x => decide (x = sep)) l
  change match (dropSeps sep l).head? with | some x => _ | none => _ at hhead
  rw [hx] at hhead
  simpa using hhead

@[simp] theorem words_dropSeps : words sep (dropSeps sep l) = words sep l := by
  induction l with
  | nil => rfl
  | cons x l ih =>
    rw [dropSeps, List.dropWhile_cons]
    split_ifs with hx
    · obtain rfl : x = sep := by simpa using hx
      rw [words_cons_self]
      exact ih
    · rfl

/-- There is no word in a list of separators. -/
theorem words_eq_nil (h : dropSeps sep l = []) : words sep l = [] := by
  rw [← words_dropSeps, h, words_nil]

/-- A reader finds the first word, and the others behind it. -/
theorem words_eq_cons (h : dropSeps sep l ≠ []) :
    takeWord sep (dropSeps sep l) ≠ [] ∧
      words sep l = takeWord sep (dropSeps sep l) ::
        words sep (dropSeps sep (dropWord sep (dropSeps sep l))) := by
  have hne : takeWord sep (dropSeps sep l) ≠ [] := by
    obtain ⟨x, l', hl⟩ := List.exists_cons_of_ne_nil h
    have hx : x ≠ sep := dropSeps_head x (by rw [hl]; rfl)
    rw [hl, takeWord, List.takeWhile_cons, if_pos (by simpa using hx)]
    exact List.cons_ne_nil _ _
  refine ⟨hne, ?_⟩
  rw [words_dropSeps, ← words_dropSeps (l := l)]
  generalize dropSeps sep l = l' at hne
  rcases dropWord_eq sep l' with hnil | ⟨l'', hcons⟩
  · have hl : takeWord sep l' = l' := by
      have happ := takeWord_append_dropWord sep l'
      rwa [hnil, List.append_nil] at happ
    rw [hnil, words_nil, hl]
    exact words_of_not_mem (hl ▸ not_mem_takeWord) (hl ▸ hne)
  · rw [hcons, words_cons_self, ← words_append_cons not_mem_takeWord hne, ← hcons,
      takeWord_append_dropWord]

example : words 0 [0, 0, 1, 2, 0, 0, 3, 0] = [[1, 2], [3]] := by decide

end MicroKernel
