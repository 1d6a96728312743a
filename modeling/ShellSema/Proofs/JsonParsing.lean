import ShellSema.Proofs.JsonText

/-!
# Values of written texts

The reader goes over the lexemes of a value and ends with that value, inside whatever arrays and objects
are open, as long as the limit of nesting is kept.
-/
namespace ShellSema.Json

open Progress

variable {limit : Nat}

/-- Go over lexemes, from some progress on. -/
def advance (limit : Nat) (progress : Progress) (lexemes : List Lexeme) : Option Progress :=
  lexemes.foldlM (step? (some limit)) progress

theorem advance_cons {progress : Progress} {lexeme : Lexeme} {lexemes : List Lexeme} :
    advance limit progress (lexeme :: lexemes) =
      (step? (some limit) progress lexeme).bind fun progress => advance limit progress lexemes := rfl

/-- Where a value may stand, the reader goes over all of it and puts it into what is open. -/
def ReadsValue (limit : Nat) (value : Json) : Prop :=
  ∀ frames expected rest, value.depth + frames.length ≤ limit →
    expected = .value ∨ expected = .valueOrClose →
    advance limit ⟨expected, frames⟩ (value.toLexemes ++ rest) =
      advance limit (finish value frames) rest

theorem tooDeep_eq_false {depth : Nat} (within : depth ≤ limit) :
    tooDeep (some limit) depth = false := by
  simpa [tooDeep] using within

/-! ### Arrays and objects -/

theorem close_array {items : List Json} {frames : List Frame} (within : frames.length < limit) :
    close (some limit) (.array items) frames = finish (.array items.reverse) frames := by
  simp [close, tooDeep_eq_false (Nat.succ_le_of_lt within)]

theorem named?_map (members : List (String × Json)) :
    named? (members.map fun member => (some member.1, member.2)) = some members := by
  induction members with
  | nil => rfl
  | cons member members ih => simp [named?, ih]

/-- Members as they are kept while their object is open: last first. -/
def kept (members : List (String × Json)) : List (Option String × Json) :=
  (members.map fun member => (some member.1, member.2)).reverse

theorem kept_concat (members : List (String × Json)) (member : String × Json) :
    kept (members ++ [member]) = (some member.1, member.2) :: kept members := by
  simp [kept]

theorem close_object {members : List (String × Json)} {key : Option String} {frames : List Frame}
    (within : frames.length < limit) :
    close (some limit) (.object (kept members) key) frames = finish (.object members) frames := by
  simp [close, tooDeep_eq_false (Nat.succ_le_of_lt within), kept, named?_map]

theorem advance_moreItems {items before : List Json} {frames : List Frame} {rest : List Lexeme}
    (reads : ∀ item ∈ items, ReadsValue limit item)
    (within : depthOfAll items + (frames.length + 1) ≤ limit) :
    advance limit ⟨.commaOrClose, .array before :: frames⟩ (moreItemLexemes items ++ rest) =
      advance limit (finish (.array (before.reverse ++ items)) frames) rest := by
  induction items generalizing before with
  | nil =>
    rw [depthOfAll] at within
    change advance limit (close (some limit) (.array before) frames) rest = _
    rw [close_array (by omega), List.append_nil]
  | cons item items ih =>
    rw [depthOfAll] at within
    change advance limit ⟨.value, .array before :: frames⟩
      (item.toLexemes ++ moreItemLexemes items ++ rest) = _
    have first := reads item List.mem_cons_self (.array before :: frames) .value
      (moreItemLexemes items ++ rest) (by rw [List.length_cons]; omega) (.inl rfl)
    rw [List.append_assoc, first]
    change advance limit ⟨.commaOrClose, .array (item :: before) :: frames⟩ _ = _
    rw [ih (fun other member => reads other (List.mem_cons_of_mem _ member)) (by omega)]
    simp

theorem advance_moreMembers {members before : List (String × Json)} {key : Option String}
    {frames : List Frame} {rest : List Lexeme}
    (reads : ∀ member ∈ members, ReadsValue limit member.2)
    (within : depthOfMembers members + (frames.length + 1) ≤ limit) :
    advance limit ⟨.commaOrClose, .object (kept before) key :: frames⟩
        (moreMemberLexemes members ++ rest) =
      advance limit (finish (.object (before ++ members)) frames) rest := by
  -- The frame of the object keeps the members read so far; each further one is added to them.
  induction members generalizing before key with
  | nil =>
    rw [depthOfMembers] at within
    change advance limit (close (some limit) (.object (kept before) key) frames) rest = _
    rw [close_object (by omega), List.append_nil]
  | cons member members ih =>
    rw [depthOfMembers] at within
    change advance limit ⟨.value, .object (kept before) (some member.1) :: frames⟩
      (member.2.toLexemes ++ moreMemberLexemes members ++ rest) = _
    have first := reads member List.mem_cons_self (.object (kept before) (some member.1) :: frames)
      .value (moreMemberLexemes members ++ rest) (by rw [List.length_cons]; omega) (.inl rfl)
    rw [List.append_assoc, first]
    change advance limit ⟨.commaOrClose,
      .object ((some member.1, member.2) :: kept before) (some member.1) :: frames⟩ _ = _
    rw [← kept_concat, ih (fun other inside => reads other (List.mem_cons_of_mem _ inside)) (by omega)]
    simp

/-! ### Values -/

/-- Where a value may stand, any lexeme but a closing one begins a value. -/
theorem step?_begin {expected : Expected} (place : expected = .value ∨ expected = .valueOrClose)
    (frames : List Frame) {lexeme : Lexeme} (other : lexeme ≠ .closeArray) :
    step? (some limit) ⟨expected, frames⟩ lexeme = begin? frames lexeme := by
  rcases place with rfl | rfl
  · rfl
  · cases frames <;> cases lexeme <;> first | rfl | exact absurd rfl other

theorem readsValue_array {items : List Json} (reads : ∀ item ∈ items, ReadsValue limit item) :
    ReadsValue limit (.array items) := by
  intro frames expected rest within place
  rw [depth] at within
  rw [toLexemes, List.cons_append, advance_cons, step?_begin place frames (by simp)]
  change advance limit ⟨.valueOrClose, .array [] :: frames⟩ (itemLexemes items ++ rest) = _
  cases items with
  | nil =>
    change advance limit (close (some limit) (.array []) frames) rest = _
    rw [close_array (by omega)]
    rfl
  | cons item items =>
    rw [depthOfAll] at within
    have first := reads item List.mem_cons_self (.array [] :: frames) .valueOrClose
      (moreItemLexemes items ++ rest) (by rw [List.length_cons]; omega) (.inr rfl)
    rw [itemLexemes, List.append_assoc, first]
    change advance limit ⟨.commaOrClose, .array [item] :: frames⟩ _ = _
    rw [advance_moreItems (fun other member => reads other (List.mem_cons_of_mem _ member)) (by omega)]
    rfl

theorem readsValue_object {members : List (String × Json)}
    (reads : ∀ member ∈ members, ReadsValue limit member.2) : ReadsValue limit (.object members) := by
  intro frames expected rest within place
  rw [depth] at within
  rw [toLexemes, List.cons_append, advance_cons, step?_begin place frames (by simp)]
  change advance limit ⟨.keyOrClose, .object [] none :: frames⟩ (memberLexemes members ++ rest) = _
  cases members with
  | nil =>
    change advance limit (close (some limit) (.object (kept []) none) frames) rest = _
    rw [close_object (by omega)]
  | cons member members =>
    rw [depthOfMembers] at within
    change advance limit ⟨.value, .object [] (some member.1) :: frames⟩
      (member.2.toLexemes ++ moreMemberLexemes members ++ rest) = _
    have first := reads member List.mem_cons_self (.object [] (some member.1) :: frames) .value
      (moreMemberLexemes members ++ rest) (by rw [List.length_cons]; omega) (.inl rfl)
    rw [List.append_assoc, first]
    change advance limit ⟨.commaOrClose, .object (kept [member]) (some member.1) :: frames⟩ _ = _
    rw [advance_moreMembers (fun other inside => reads other (List.mem_cons_of_mem _ inside))
      (by omega)]
    rfl

/-- The reader goes over the lexemes of a faithful value. -/
theorem Faithful.readsValue {value : Json} (faithful : value.Faithful) : ReadsValue limit value := by
  induction faithful with
  | array _ ih => exact readsValue_array ih
  | object _ ih => exact readsValue_object ih
  | _ =>
    intro frames expected rest _ place
    -- A value of one lexeme is finished by it.
    refine (congrArg (Option.bind · _) (step?_begin place frames ?_)).trans rfl
    simp

/-- The text of a faithful value is read as that value, if the value keeps the limit of nesting. -/
theorem read?_write {layout : Layout} (blank : layout.IsBlank) {value : Json}
    (faithful : value.Faithful) (within : value.depth ≤ limit) :
    read? (some limit) (write layout value) = some value := by
  have walked : advance limit start (value.toLexemes ++ []) = some (finish value []) :=
    faithful.readsValue [] .value [] within (.inl rfl)
  rw [List.append_nil] at walked
  simp only [read?, lexemes?_write blank faithful, ofLexemes?]
  change (advance limit start value.toLexemes).bind result? = some value
  rw [walked]
  rfl

end ShellSema.Json
