import Mathlib.Data.List.DropRight
import ShellSema.Settings

/-!
# Which log filter is taken

Up to four sources give a log filter: the flag, two variables of the environment and the settings. The
first of them that says anything is meant to win, without the blanks around it. But the choice falls on
the first source that is given at all; if that one is blank, the default filter is taken, and what the
sources after it say is hidden.
-/
namespace ShellSema

namespace Text

/-- There is nothing but blanks in the text. -/
def IsBlankText (text : String) : Prop := ∀ c ∈ text.toList, isBlank c = true

instance (text : String) : Decidable (IsBlankText text) :=
  inferInstanceAs (Decidable (∀ c ∈ text.toList, isBlank c = true))

theorem trimChars_eq_nil {cs : List Char} : trimChars cs = [] ↔ ∀ c ∈ cs, isBlank c = true := by
  have trimmed : trimChars cs = (cs.dropWhile isBlank).rdropWhile isBlank := rfl
  rw [trimmed, List.rdropWhile_eq_nil_iff]
  constructor
  · intro rest
    -- What stands in front of the rest has been dropped as blank.
    rw [← List.takeWhile_append_dropWhile (p := isBlank) (l := cs)]
    intro c member
    rcases List.mem_append.mp member with front | back
    · exact List.mem_takeWhile_imp front
    · exact rest c back
  · exact fun blank c member => blank c ((List.dropWhile_sublist _).subset member)

/-- Nothing is left of a text just if it is blank. -/
theorem trim_eq_empty {text : String} : trim text = "" ↔ IsBlankText text := by
  rw [trim, String.ofList_eq_empty_iff, trimChars_eq_nil, IsBlankText]

end Text

namespace Settings

/-! ### The filter that is meant -/

/-- What a source says: its text without the blanks around it, if anything is left of it. -/
def filterOf? (source : Option String) : Option String :=
  (source.map Text.trim).filter (· ≠ "")

/-- The filter of the first source that says anything, or else the default one. -/
def firstFilter (sources : List (Option String)) : String :=
  (sources.findSome? filterOf?).getD defaultFilter

/-- The text of the first source that is given, blank or not. -/
def firstGiven? (sources : List (Option String)) : Option String :=
  sources.findSome? id

theorem filterOf?_some (text : String) :
    filterOf? (some text) = if Text.IsBlankText text then none else some (Text.trim text) := by
  simp [filterOf?, Option.filter, Text.trim_eq_empty]

theorem firstFilter_cons_some (text : String) (sources : List (Option String)) :
    firstFilter (some text :: sources) =
      if Text.IsBlankText text then firstFilter sources else Text.trim text := by
  by_cases blank : Text.IsBlankText text <;>
    simp [firstFilter, filterOf?_some, blank]

/-! ### The filter that is chosen -/

/-- The sources of a log filter, in the order in which they count. -/
def filterSources (settings : Settings) (flag ownVariable sharedVariable : Option String) :
    List (Option String) :=
  [flag, ownVariable, sharedVariable, settings.logFilter]

/-- What a choice makes of the first source that is given. The others are not looked at. -/
def filterOfGiven (sources : List (Option String)) : String :=
  (filterOf? (firstGiven? sources)).getD defaultFilter

variable {sources : List (Option String)}

theorem chooseFilter_eq (settings : Settings) (flag ownVariable sharedVariable : Option String) :
    settings.chooseFilter flag ownVariable sharedVariable =
      filterOfGiven (settings.filterSources flag ownVariable sharedVariable) := by
  have given : firstGiven? (settings.filterSources flag ownVariable sharedVariable) =
      flag.or (ownVariable.or (sharedVariable.or settings.logFilter)) := by
    unfold filterSources
    cases flag <;> cases ownVariable <;> cases sharedVariable <;> cases settings.logFilter <;> rfl
  rw [filterOfGiven, given, chooseFilter]
  cases flag.or (ownVariable.or (sharedVariable.or settings.logFilter)) with
  | none => rfl
  | some text =>
    rw [filterOf?_some, Option.map_some]
    by_cases blank : Text.IsBlankText text <;> simp [blank, Text.trim_eq_empty]

theorem filterOfGiven_of_blank {text : String} (given : firstGiven? sources = some text)
    (blank : Text.IsBlankText text) : filterOfGiven sources = defaultFilter := by
  rw [filterOfGiven, given, filterOf?_some, if_pos blank, Option.getD_none]

/-- To look at the first source that is given is enough, unless it is blank and hides a filter. -/
theorem filterOfGiven_eq_firstFilter : filterOfGiven sources = firstFilter sources ↔
    ∀ text, firstGiven? sources = some text → Text.IsBlankText text →
      firstFilter sources = defaultFilter := by
  induction sources with
  | nil => simp [filterOfGiven, firstGiven?, firstFilter, filterOf?]
  | cons source rest ih =>
    cases source with
    | none => exact ih
    | some text =>
      have given : firstGiven? (some text :: rest) = some text := rfl
      rw [filterOfGiven, given, filterOf?_some, firstFilter_cons_some]
      by_cases blank : Text.IsBlankText text
      · simp [blank, eq_comm]
      · simp [blank]

/-- The first filter that a source says is chosen, just if no blank source that is given before all
others hides one that is not the default filter. Any other choice is the default filter. -/
theorem chooseFilter_eq_firstFilter_iff (settings : Settings)
    (flag ownVariable sharedVariable : Option String) :
    (settings.chooseFilter flag ownVariable sharedVariable =
        firstFilter (settings.filterSources flag ownVariable sharedVariable) ↔
      ∀ text, firstGiven? (settings.filterSources flag ownVariable sharedVariable) = some text →
        Text.IsBlankText text →
        firstFilter (settings.filterSources flag ownVariable sharedVariable) = defaultFilter) ∧
    (settings.chooseFilter flag ownVariable sharedVariable =
        firstFilter (settings.filterSources flag ownVariable sharedVariable) ∨
      settings.chooseFilter flag ownVariable sharedVariable = defaultFilter) := by
  rw [chooseFilter_eq]
  refine ⟨filterOfGiven_eq_firstFilter, ?_⟩
  by_cases hidden : ∃ text, firstGiven? (settings.filterSources flag ownVariable sharedVariable) =
      some text ∧ Text.IsBlankText text
  · obtain ⟨text, given, blank⟩ := hidden
    exact .inr (filterOfGiven_of_blank given blank)
  · left
    rw [filterOfGiven_eq_firstFilter]
    exact fun text given blank => absurd ⟨text, given, blank⟩ hidden

/-- A variable of the environment that holds a blank hides the filter in the settings. -/
theorem blank_variable_hides :
    ({ logFilter := some "info" } : Settings).chooseFilter none (some " ") none = "warn" ∧
      firstFilter (({ logFilter := some "info" } : Settings).filterSources none (some " ") none) =
        "info" := by
  decide +kernel

end Settings
end ShellSema
