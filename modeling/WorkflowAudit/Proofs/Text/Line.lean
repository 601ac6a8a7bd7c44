import Mathlib.Data.List.Basic
import Mathlib.Data.List.Flatten
import WorkflowAudit.Proofs.Text.Search

/-!
# Lines that are read back

A line that was written for an id holds the id behind its indentation and then, from a character
that ends the id, something between an opening and a closing. What is read in a text is what is
read in its lines, so it can be said of each line that the text was put together from.
-/

namespace WorkflowAudit.Text

/-- What stands between an opening and a closing. -/
def between? (opening closing : String) (cs : List Char) : Option String :=
  (cs.dropPrefix? opening.toList).bind fun rest =>
    (rest.dropSuffix? closing.toList).map String.ofList

theorem between?_eq_some_iff {opening closing inside : String} {cs : List Char} :
    between? opening closing cs = some inside ↔
      cs = opening.toList ++ (inside.toList ++ closing.toList) := by
  simp only [between?, Option.bind_eq_some_iff, List.dropPrefix?_eq_some_iff,
    Option.map_eq_some_iff, List.dropSuffix?_eq_some_iff, beq_iff_eq, exists_eq_right]
  constructor
  · rintro ⟨_, rfl, _, rfl, rfl⟩
    rw [String.toList_ofList]
  · rintro rfl
    exact ⟨_, rfl, _, rfl, String.ofList_toList⟩

/-- An id in quotes and, from a character on that ends it, what stands between an opening and a
closing. -/
def readLine? (quote : String) (stop : Char) (opening closing : String) (line : List Char) :
    Option (String × String) := do
  let written := line.dropWhile (· = ' ')
  let id ← between? quote quote (written.takeWhile (· ≠ stop))
  let other ← between? opening closing (written.dropWhile (· ≠ stop))
  some (id, other)

/-- What a reading of single lines finds in a text. -/
def readLines {β : Type u} (read? : List Char → Option β) (text : String) : List β :=
  (text.toList.splitOn '\n').filterMap read?

/-- An id without quotes, which does not hold another character. -/
def readBare? (stop other : Char) (opening closing : String) (line : List Char) :
    Option (String × String) :=
  (readLine? "" stop opening closing line).filter fun (id, _) => other ∉ id.toList

variable {β : Type u} {read? : List Char → Option β}

theorem readLines_of_line {line : String} (single : '\n' ∉ line.toList) :
    readLines read? line = (read? line.toList).toList := by
  rw [readLines, List.splitOn_eq_singleton single]
  cases found : read? line.toList <;> simp [found]

/-- The lines of texts that are put together with line feeds are those of the texts. -/
theorem splitOn_intercalate {texts : List String} (some : texts ≠ []) :
    (String.intercalate "\n" texts).toList.splitOn '\n' =
      texts.flatMap fun text => text.toList.splitOn '\n' := by
  induction texts with
  | nil => exact absurd rfl some
  | cons text texts ih =>
      cases texts with
      | nil => simp
      | cons next texts =>
          have front : (String.intercalate "\n" (text :: next :: texts)).toList =
              text.toList ++ '\n' :: (String.intercalate "\n" (next :: texts)).toList := by
            simp [String.toList_intercalate]
          rw [List.flatMap_cons, ← ih (List.cons_ne_nil _ _), front, List.splitOn,
            List.splitOnP_append_cons (p := (· == '\n')) _ _ rfl]
          rfl

theorem readLines_intercalate {texts : List String} (some : texts ≠ []) :
    readLines read? (String.intercalate "\n" texts) = texts.flatMap (readLines read?) := by
  rw [readLines, splitOn_intercalate some, List.filterMap_flatMap]
  rfl

/-! ### The parts of a line -/

variable {quote opening closing : String} {stop other : Char} {indent w rest : List Char}

theorem readLine?_eq_some_iff {line : List Char} {id inside : String} :
    readLine? quote stop opening closing line = some (id, inside) ↔
      between? quote quote ((line.dropWhile (· = ' ')).takeWhile (· ≠ stop)) = some id ∧
        between? opening closing ((line.dropWhile (· = ' ')).dropWhile (· ≠ stop)) =
          some inside := by
  simp [readLine?, Option.bind_eq_some_iff]

theorem dropWhile_indent {cs : List Char} (blank : ∀ c ∈ indent, c = ' ')
    (start : ∀ c ∈ cs.head?, c ≠ ' ') : (indent ++ cs).dropWhile (· = ' ') = cs := by
  rw [List.dropWhile_append_of_pos fun c hc => decide_eq_true (blank c hc)]
  cases cs with
  | nil => rfl
  | cons c cs => simp [start c rfl]

/-- A line is read behind its indentation, and its id goes up to the character that ends it. -/
theorem readLine?_append {id other : String} (blank : ∀ c ∈ indent, c = ' ')
    (start : ∀ c ∈ (w ++ stop :: rest).head?, c ≠ ' ') (inside : stop ∉ w) :
    readLine? quote stop opening closing (indent ++ (w ++ stop :: rest)) = some (id, other) ↔
      between? quote quote w = some id ∧ between? opening closing (stop :: rest) = some other := by
  rw [readLine?_eq_some_iff, dropWhile_indent blank start,
    List.takeWhile_append_of_pos (passes_of_not_mem inside),
    List.dropWhile_append_of_pos (passes_of_not_mem inside)]
  simp

/-- Without its quotation mark nothing is read. -/
theorem readLine?_unquoted {line : List Char}
    (unquoted : (line.dropWhile (· = ' ')).head? ≠ some '"') :
    readLine? "\"" stop opening closing line = none := by
  rw [Option.eq_none_iff_forall_ne_some]
  rintro ⟨id, inside⟩ found
  obtain ⟨found, -⟩ := readLine?_eq_some_iff.mp found
  rw [between?_eq_some_iff] at found
  cases written : line.dropWhile (· = ' ') with
  | nil => simp [written] at found
  | cons c cs =>
      rw [written, List.takeWhile_cons] at found
      split at found
      · exact unquoted (by rw [written, (List.cons.inj found).1]; rfl)
      · cases found

/-- A line that does not end with the closing is not read. -/
theorem readLine?_unclosed {line : List Char} (unclosed : ¬closing.toList <:+ line) :
    readLine? quote stop opening closing line = none := by
  rw [Option.eq_none_iff_forall_ne_some]
  rintro ⟨id, inside⟩ found
  obtain ⟨-, found⟩ := readLine?_eq_some_iff.mp found
  rw [between?_eq_some_iff, ← List.append_assoc] at found
  have behind : closing.toList <:+ (line.dropWhile (· = ' ')).dropWhile (· ≠ stop) :=
    ⟨_, found.symm⟩
  exact unclosed (behind.trans ((List.dropWhile_suffix _).trans (List.dropWhile_suffix _)))

/-- A line is not read where a character that ids do not hold comes before the one that ends
them. -/
theorem readBare?_append (blank : ∀ c ∈ indent, c = ' ')
    (start : ∀ c ∈ (w ++ other :: rest).head?, c ≠ ' ') (inside : stop ∉ w) (apart : other ≠ stop) :
    readBare? stop other opening closing (indent ++ (w ++ other :: rest)) = none := by
  rw [Option.eq_none_iff_forall_ne_some]
  rintro ⟨id, x⟩ found
  obtain ⟨found, plain⟩ := Option.filter_eq_some_iff.mp found
  obtain ⟨found, -⟩ := readLine?_eq_some_iff.mp found
  rw [dropWhile_indent blank start, List.takeWhile_append_of_pos (passes_of_not_mem inside),
    List.takeWhile_cons_of_pos (p := (· ≠ stop)) (decide_eq_true apart),
    between?_eq_some_iff] at found
  have held : other ∈ id.toList := by
    have member : other ∈ w ++ other :: rest.takeWhile (· ≠ stop) := by simp
    rw [found] at member
    simpa using member
  exact (of_decide_eq_true plain) held

theorem readBare?_eq_some {line : List Char} {id inside : String}
    (found : readLine? "" stop opening closing line = some (id, inside))
    (apart : other ∉ id.toList) :
    readBare? stop other opening closing line = some (id, inside) := by
  rw [readBare?, found]
  simp [apart]

end WorkflowAudit.Text
