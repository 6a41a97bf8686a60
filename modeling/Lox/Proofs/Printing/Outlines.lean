import Mathlib.Data.List.TakeWhile
import Lox.Outline

/-!
  The drawing of an outline determines it.

  An outline is drawn with a line for each node.  Two outlines with the same drawing are the same
  (`forest_of_text`), if their labels are clean: they begin with a capital letter and have no newline
  (`CleanLabel`).  The drawing is read back in three steps, each of which has only one result:

  1. A text falls into lines in one way only (`eq_of_ended`), because no line has a newline.
  2. A line falls into what is drawn before its label, three characters for each level, and the label
     (`unhang`), because no label begins with one of the characters that are drawn.
  3. What remains are the labels with their depths, from top to bottom (`Outline.rows`), and from these the tree
     can be built up again: behind a node its children are all that lies deeper (`rowsAll_inj`).

  The second step is an induction along the functions that draw (`lines_rows`, `branches_rows`), the third one
  on the number of rows.
-/

namespace Lox

/-! ## Labels and rows -/

/-- The text is on one line. -/
def OneLine (s : String) : Prop := '\n' ∉ s.toList

instance (s : String) : Decidable (OneLine s) := inferInstanceAs (Decidable ('\n' ∉ s.toList))

/-- Two texts are on one line if each is. -/
theorem oneLine_append {s t : String} : OneLine (s ++ t) ↔ OneLine s ∧ OneLine t := by
  rw [OneLine, String.toList_append, List.mem_append, not_or]
  rfl

/-- The label begins with a capital letter and is on one line. -/
structure CleanLabel (label : String) : Prop where
  capital : ∃ c rest, label.toList = c :: rest ∧ c.isUpper = true
  line : OneLine label

/-- One level deeper. -/
def deeper (row : Nat × List Char) : Nat × List Char := (row.1 + 1, row.2)

namespace Outline

mutual

/-- All labels of the tree are clean. -/
def Clean : Outline → Prop
  | node label children => CleanLabel label ∧ CleanAll children

/-- All labels of the trees are clean. -/
def CleanAll : List Outline → Prop
  | [] => True
  | o :: os => o.Clean ∧ CleanAll os

end

mutual

/-- The labels from top to bottom, each with its depth. -/
def rows : Outline → List (Nat × List Char)
  | node label children => (0, label.toList) :: (rowsAll children).map deeper

/-- The labels of trees that stand beside each other. -/
def rowsAll : List Outline → List (Nat × List Char)
  | [] => []
  | o :: os => o.rows ++ rowsAll os

end

/-! ## Trees from their rows -/

/-- The first row of a tree is its only one that is not below another. -/
theorem rowsAll_shallow (os : List Outline) : ∀ row ∈ (rowsAll os).head?, row.1 = 0 := by
  cases os with
  | nil => exact nofun
  | cons o os =>
    obtain ⟨label, children⟩ := o
    rintro row hrow
    rw [rowsAll, rows, List.cons_append, List.head?_cons] at hrow
    cases hrow
    rfl

/-- Rows that all lie deeper end where the next one does not. -/
theorem deeper_append_inj {below below' after after' : List (Nat × List Char)}
    (h : ∀ row ∈ after.head?, row.1 = 0) (h' : ∀ row ∈ after'.head?, row.1 = 0)
    (heq : below.map deeper ++ after = below'.map deeper ++ after') : below = below' ∧ after = after' := by
  -- What is below has been moved down by one level, and what comes after begins on the level of the node, so
  -- that the two cannot be confused.
  induction below generalizing below' with
  | nil =>
    cases below' with
    | nil => exact ⟨rfl, heq⟩
    | cons row below' =>
      have hrow := h (deeper row) (by rw [List.map_nil, List.nil_append] at heq; rw [heq]; rfl)
      exact absurd hrow (Nat.succ_ne_zero _)
  | cons row below ih =>
    cases below' with
    | nil =>
      have hrow := h' (deeper row) (by rw [List.map_nil, List.nil_append] at heq; rw [← heq]; rfl)
      exact absurd hrow (Nat.succ_ne_zero _)
    | cons row' below' =>
      obtain ⟨hrow, hrest⟩ := List.cons_eq_cons.mp heq
      obtain ⟨hbelow, hafter⟩ := ih hrest
      refine ⟨?_, hafter⟩
      obtain ⟨depth, label⟩ := row
      obtain ⟨depth', label'⟩ := row'
      obtain ⟨hdepth, hlabel⟩ := Prod.mk.inj hrow
      obtain rfl : depth = depth' := Nat.succ.inj hdepth
      obtain rfl : label = label' := hlabel
      rw [hbelow]

/-- **Trees are determined by their labels and the depths of these.** -/
theorem rowsAll_inj {os os' : List Outline} (h : rowsAll os = rowsAll os') : os = os' := by
  -- By the number of rows: the children of the first node and what is beside it are both fewer.
  induction hn : (rowsAll os).length using Nat.strong_induction_on generalizing os os' with
  | h n ih =>
    cases os with
    | nil =>
      cases os' with
      | nil => rfl
      | cons o' os' =>
        obtain ⟨label', children'⟩ := o'
        cases h
    | cons o os =>
      obtain ⟨label, children⟩ := o
      cases os' with
      | nil => cases h
      | cons o' os' =>
        obtain ⟨label', children'⟩ := o'
        rw [rowsAll, rows, List.cons_append] at h hn
        rw [rowsAll, rows, List.cons_append] at h
        obtain ⟨hlabel, hrest⟩ := List.cons_eq_cons.mp h
        obtain ⟨hchildren, hbeside⟩ := deeper_append_inj (rowsAll_shallow os) (rowsAll_shallow os') hrest
        rw [List.length_cons, List.length_append, List.length_map] at hn
        rw [String.toList_injective (Prod.mk.inj hlabel).2, ih _ (by omega) hchildren rfl,
          ih _ (by omega) hbeside rfl]

/-! ## Rows from lines

  The guides before a label tell how deep it is, and can be taken off again. -/

/-- The depth of a line and its label: up to the first capital letter three characters are drawn for
    each level. -/
def unhang : List Char → Nat × List Char
  | a :: b :: c :: rest =>
    if a.isUpper then (0, a :: b :: c :: rest) else deeper (unhang rest)
  | line => (0, line)

/-- A clean label has nothing drawn before it. -/
theorem unhang_label {label : String} (h : CleanLabel label) : unhang label.toList = (0, label.toList) := by
  obtain ⟨c, rest, hlabel, hc⟩ := h.capital
  rw [hlabel]
  unfold unhang
  split
  · rename_i hline
    cases hline
    rw [if_pos hc]
  · rfl

/-- What is drawn before a line for one level. -/
structure LevelUnit (unit : String) : Prop where
  drawn : ∀ line, unhang (unit.toList ++ line) = deeper (unhang line)
  line : OneLine unit

theorem unit_last : LevelUnit "└─ " := ⟨fun _ => rfl, by decide⟩
theorem unit_behind : LevelUnit "   " := ⟨fun _ => rfl, by decide⟩
theorem unit_branch : LevelUnit "├─ " := ⟨fun _ => rfl, by decide⟩
theorem unit_through : LevelUnit "│  " := ⟨fun _ => rfl, by decide⟩

/-- Lines that hang below a node lie one level deeper. -/
theorem unhang_hang {first others : String} (h : LevelUnit first) (h' : LevelUnit others) (ls : List String) :
    (hang first others ls).map (fun line => unhang line.toList) =
      (ls.map fun line => unhang line.toList).map deeper := by
  cases ls with
  | nil => rfl
  | cons line ls =>
    simp only [hang, List.map_cons, List.map_map, String.toList_append, h.drawn]
    congr 1
    refine List.map_congr_left fun line _ => ?_
    rw [Function.comp_apply, String.toList_append, h'.drawn]
    rfl

/-- What is drawn before a line has no newline. -/
theorem line_hang {first others : String} (h : LevelUnit first) (h' : LevelUnit others) {ls : List String}
    (hls : ∀ line ∈ ls, OneLine line) : ∀ line ∈ hang first others ls, OneLine line := by
  cases ls with
  | nil => exact nofun
  | cons line ls =>
    obtain ⟨hline, hls⟩ := List.forall_mem_cons.mp hls
    refine List.forall_mem_cons.mpr ⟨oneLine_append.mpr ⟨h.line, hline⟩, fun other hmem => ?_⟩
    obtain ⟨line', hline', rfl⟩ := List.mem_map.mp hmem
    exact oneLine_append.mpr ⟨h'.line, hls line' hline'⟩

mutual

/-- The lines of a tree are its rows, and each is a line. -/
theorem lines_rows : ∀ o : Outline, o.Clean →
    o.lines.map (fun line => unhang line.toList) = o.rows ∧ ∀ line ∈ o.lines, OneLine line
  | node label children, h => by
    obtain ⟨hrows, hlines⟩ := branches_rows children h.2
    rw [lines, rows, List.map_cons, unhang_label h.1, hrows]
    exact ⟨rfl, List.forall_mem_cons.mpr ⟨h.1.line, hlines⟩⟩

/-- The lines of children are their rows, one level deeper. -/
theorem branches_rows : ∀ os : List Outline, CleanAll os →
    (branches os).map (fun line => unhang line.toList) = (rowsAll os).map deeper ∧
      ∀ line ∈ branches os, OneLine line
  | [], _ => ⟨rfl, nofun⟩
  | [last], h => by
    obtain ⟨hrows, hlines⟩ := lines_rows last h.1
    refine ⟨?_, line_hang unit_last unit_behind hlines⟩
    rw [branches, unhang_hang unit_last unit_behind, hrows, rowsAll, rowsAll, List.append_nil]
  | child :: next :: rest, h => by
    obtain ⟨hrows, hlines⟩ := lines_rows child h.1
    obtain ⟨hrest, hlines'⟩ := branches_rows (next :: rest) h.2
    rw [branches.eq_3 _ _ (by simp), List.map_append, unhang_hang unit_branch unit_through, hrows, hrest,
      rowsAll.eq_2 child, List.map_append]
    exact ⟨rfl, List.forall_mem_append.mpr ⟨line_hang unit_branch unit_through hlines, hlines'⟩⟩

end

/-! ## Lines from a text -/

/-- Lines with their ends, one behind the other. -/
def ended (ls : List String) : List Char := ls.flatMap fun line => line.toList ++ ['\n']

/-- Where a mark stands for the first time a list is split in one way only. -/
theorem split_inj {α : Type} {mark : α} {xs ys us vs : List α} (hx : mark ∉ xs) (hy : mark ∉ ys)
    (h : xs ++ mark :: us = ys ++ mark :: vs) : xs = ys ∧ us = vs := by
  induction xs generalizing ys with
  | nil =>
    cases ys with
    | nil => exact ⟨rfl, (List.cons.inj h).2⟩
    | cons y ys => exact absurd ((List.cons.inj h).1 ▸ List.mem_cons_self) hy
  | cons x xs ih =>
    cases ys with
    | nil => exact absurd ((List.cons.inj h).1 ▸ List.mem_cons_self) hx
    | cons y ys =>
      obtain ⟨rfl, hrest⟩ := List.cons_eq_cons.mp h
      obtain ⟨rfl, rfl⟩ := ih (fun hmem => hx (List.mem_cons_of_mem x hmem))
        (fun hmem => hy (List.mem_cons_of_mem x hmem)) hrest
      exact ⟨rfl, rfl⟩

/-- **A text falls into lines in one way only.** -/
theorem eq_of_ended {ls ls' : List String} (h : ∀ line ∈ ls, OneLine line)
    (h' : ∀ line ∈ ls', OneLine line) (heq : ended ls = ended ls') : ls = ls' := by
  induction ls generalizing ls' with
  | nil =>
    cases ls' with
    | nil => rfl
    | cons line' ls' => simp [ended] at heq
  | cons line ls ih =>
    cases ls' with
    | nil => simp [ended] at heq
    | cons line' ls' =>
      obtain ⟨hline, hls⟩ := List.forall_mem_cons.mp h
      obtain ⟨hline', hls'⟩ := List.forall_mem_cons.mp h'
      -- The first newline of the text is the end of the first line, on both sides.
      have hsplit : line.toList ++ '\n' :: ended ls = line'.toList ++ '\n' :: ended ls' := by
        simpa [ended] using heq
      obtain ⟨hfirst, hrest⟩ := split_inj hline hline' hsplit
      rw [String.toList_injective hfirst, ih hls hls' hrest]

/-- The text of trees is that of all their lines. -/
theorem toList_texts (os : List Outline) :
    (String.join (os.map text)).toList = ended (os.flatMap lines) := by
  have hlines : ∀ ls : List String, (String.join (ls.map (· ++ "\n"))).toList = ended ls := by
    intro ls
    induction ls with
    | nil => rfl
    | cons line ls ih =>
      rw [List.map_cons, String.join_cons, String.toList_append, ih, String.toList_append]
      rfl
  induction os with
  | nil => rfl
  | cons o os ih =>
    rw [List.map_cons, String.join_cons, String.toList_append, ih, text, hlines, List.flatMap_cons, ended,
      ended, ended, List.flatMap_append]

/-- **Trees with the same text are the same.** -/
theorem forest_of_text {os os' : List Outline} (h : CleanAll os) (h' : CleanAll os')
    (heq : String.join (os.map text) = String.join (os'.map text)) : os = os' := by
  have hall : ∀ {os : List Outline}, CleanAll os →
      (os.flatMap lines).map (fun line => unhang line.toList) = rowsAll os ∧
        ∀ line ∈ os.flatMap lines, OneLine line := by
    intro os h
    induction os with
    | nil => exact ⟨rfl, nofun⟩
    | cons o os ih =>
      obtain ⟨hrows, hlines⟩ := lines_rows o h.1
      obtain ⟨hrest, hlines'⟩ := ih h.2
      rw [List.flatMap_cons, List.map_append, hrows, hrest, rowsAll]
      exact ⟨rfl, List.forall_mem_append.mpr ⟨hlines, hlines'⟩⟩
  -- The same characters, so the same lines, so the same rows, so the same trees.
  have htext := congrArg String.toList heq
  rw [toList_texts, toList_texts] at htext
  have hlines := eq_of_ended (hall h).2 (hall h').2 htext
  refine rowsAll_inj ?_
  rw [← (hall h).1, ← (hall h').1, hlines]

end Outline

end Lox
