import Outline.Proofs.TypeRef.Reading

/-!
# The text of a type as a bracket tree

The text of a type is that of a bracket tree, and the marks behind its name are those that are
taken off again, unless the name ends with marks of its own.

* `tree`, `texts_tree` — the bracket tree of the text of a type.
* `Shaped` — the types that are made of names and wildcards.
* `Piece.takeMarks_append`, `Piece.length_takeMarks_lt` — what is taken off a name with marks.
-/

namespace Outline.TypeRef

/-! ## The tree of a text -/

namespace Piece

/-- The marks behind a name and its list. -/
def marks (dimensions : Nat) (nullable : Bool) : List Piece :=
  (List.replicate dimensions [.char '[', .char ']']).flatten ++
    if nullable then [.char '?'] else []

/-- The segments of a list with a comma and a space between them. -/
def joined (qs : List (List Piece)) : List Piece := [.char ',', .char ' '].intercalate qs

/-- The tree of a type with the given name and arguments. -/
def shape (name : String) (params : List (List Piece)) (dimensions : Nat) (nullable : Bool) :
    List Piece :=
  match isWildcardName name, params with
  | true, [bound] => name.toList.map .char ++ .char ' ' :: bound
  | _, _ =>
    name.toList.map .char ++ ((if params.isEmpty then [] else [.list (joined params)]) ++
      marks dimensions nullable)

theorem texts_joined (qs : List (List Piece)) :
    texts (joined qs) = [',', ' '].intercalate (qs.map texts) := by
  induction qs with
  | nil => simp [joined, texts]
  | cons q qs ih =>
      cases qs with
      | nil => simp [joined]
      | cons q' qs =>
          simp only [joined] at ih
          simp [joined, texts_append, texts, ih, List.intercalate_cons_cons]

theorem texts_marks (dimensions : Nat) (nullable : Bool) :
    texts (marks dimensions nullable) =
      (List.replicate dimensions ['[', ']']).flatten ++ if nullable then ['?'] else [] := by
  rw [marks, texts_append]
  congr 1
  · induction dimensions with
    | zero => simp [texts]
    | succ d ih => simp [List.replicate_succ, texts, ih]
  · cases nullable <;> simp [texts]

/-- The text of a type that is no wildcard with a bound. -/
theorem shapeText_named {name : String} {params : List String}
    (h : ∀ bound, ¬ (isWildcardName name = true ∧ params = [bound])) (dimensions : Nat)
    (nullable : Bool) :
    (shapeText name params dimensions nullable).toList = name.toList ++
      ((if params.isEmpty then [] else
          '<' :: ([',', ' '].intercalate (params.map String.toList) ++ ['>'])) ++
        ((List.replicate dimensions ['[', ']']).flatten ++ if nullable then ['?'] else [])) := by
  unfold shapeText
  split
  · rename_i bound hwild
    exact absurd ⟨hwild, rfl⟩ (h bound)
  · rename_i ps _ _ hne
    have hbrackets : (String.join (List.replicate dimensions "[]")).toList =
        (List.replicate dimensions ['[', ']']).flatten := by
      rw [String.toList_join, List.flatMap_replicate]
      rfl
    cases ps <;> cases nullable <;> simp [hbrackets, String.toList_intercalate]

/-- The tree of a type that is no wildcard with a bound. -/
theorem shape_named {name : String} {params : List (List Piece)}
    (h : ∀ bound, ¬ (isWildcardName name = true ∧ params = [bound])) (dimensions : Nat)
    (nullable : Bool) :
    shape name params dimensions nullable = name.toList.map .char ++
      ((if params.isEmpty then [] else [.list (joined params)]) ++ marks dimensions nullable) := by
  unfold shape
  split
  · rename_i bound hwild
    exact absurd ⟨hwild, rfl⟩ (h bound)
  · rfl

theorem texts_shape (name : String) (params : List (List Piece)) (dimensions : Nat)
    (nullable : Bool) (names : List String) (h : params.map texts = names.map String.toList) :
    texts (shape name params dimensions nullable) =
      (shapeText name names dimensions nullable).toList := by
  by_cases hbound : ∃ bound, isWildcardName name = true ∧ params = [bound]
  · obtain ⟨bound, hwild, rfl⟩ := hbound
    obtain ⟨text, rfl⟩ : ∃ text, names = [text] :=
      List.length_eq_one_iff.1 (by simpa using (congrArg List.length h).symm)
    rw [List.map_singleton, List.map_singleton, List.singleton_inj] at h
    simp [shape, shapeText, hwild, texts_append, texts_map_char, texts, h]
  · have hlength : names.length = params.length := by
      simpa using (congrArg List.length h).symm
    have hempty : names.isEmpty = params.isEmpty := by
      rw [Bool.eq_iff_iff, List.isEmpty_iff_length_eq_zero, List.isEmpty_iff_length_eq_zero,
        hlength]
    rw [shape_named fun bound hb => hbound ⟨bound, hb⟩, shapeText_named, texts_append,
      texts_append, texts_map_char, texts_marks, hempty, ← h, ← texts_joined]
    · cases params.isEmpty <;> simp [texts]
    · rintro bound ⟨hwild, rfl⟩
      obtain ⟨bound', rfl⟩ := List.length_eq_one_iff.1 hlength.symm
      exact hbound ⟨bound', hwild, rfl⟩

end Piece

mutual

/-- The bracket tree of the text of a type. -/
def tree : TypeRef → List Piece
  | ⟨name, nullable, dimensions, params⟩ => Piece.shape name (trees params) dimensions nullable

/-- The bracket trees of the texts of types. -/
def trees : List TypeRef → List (List Piece)
  | [] => []
  | t :: ts => t.tree :: trees ts

end

theorem trees_eq_map (ts : List TypeRef) : trees ts = ts.map tree := by
  induction ts with
  | nil => rw [trees, List.map_nil]
  | cons t ts ih => rw [trees, List.map_cons, ih]

theorem texts_eq_map (ts : List TypeRef) : texts ts = ts.map text := by
  induction ts with
  | nil => rw [texts, List.map_nil]
  | cons t ts ih => rw [texts, List.map_cons, ih]

theorem texts_tree : (t : TypeRef) → Piece.texts (tree t) = t.text.toList
  | ⟨name, nullable, dimensions, params⟩ => by
    rw [tree, text, trees_eq_map, texts_eq_map]
    refine Piece.texts_shape _ _ _ _ _ ?_
    rw [List.map_map, List.map_map]
    exact List.map_congr_left fun t ht => texts_tree t

/-! ## Names -/

/-- The text ends with a mark of a type. -/
def EndsInMark (cs : List Char) : Prop := ['?'] <:+ cs ∨ ['[', ']'] <:+ cs

instance (cs : List Char) : Decidable (EndsInMark cs) :=
  inferInstanceAs (Decidable (['?'] <:+ cs ∨ ['[', ']'] <:+ cs))

/-- A name that a type can be read with; inside a list it contains no comma. -/
structure IsName (inList : Bool) (cs : List Char) : Prop where
  nonempty : cs ≠ []
  first : ∀ c ∈ cs.head?, Text.isWhiteSpace c = false
  last : ∀ c ∈ cs.getLast?, Text.isWhiteSpace c = false
  plain : ∀ c ∈ cs, c ≠ '#' ∧ c ≠ '<' ∧ c ≠ '>'
  noWildcard : cs.head? ≠ some '?'
  noComma : inList = true → ',' ∉ cs

theorem isName_iff {inList : Bool} {cs : List Char} :
    IsName inList cs ↔ (!cs.isEmpty && !cs.head?.any Text.isWhiteSpace &&
      !cs.getLast?.any Text.isWhiteSpace && cs.all (fun c => c != '#' && c != '<' && c != '>') &&
      cs.head? != some '?' && !(inList && cs.contains ',')) = true := by
  have hwhite : ∀ c? : Option Char,
      (!c?.any Text.isWhiteSpace) = true ↔ ∀ c ∈ c?, Text.isWhiteSpace c = false := by
    rintro (- | c) <;> simp
  simp only [Bool.and_eq_true, hwhite]
  constructor
  · intro h
    have hcomma := h.noComma
    simp only [List.all_eq_true]
    refine ⟨⟨⟨⟨⟨?_, h.first⟩, h.last⟩, fun c hc => ?_⟩, by simpa using h.noWildcard⟩, ?_⟩
    · simpa using h.nonempty
    · simpa [and_assoc] using h.plain c hc
    · cases inList <;> simp_all
  · rintro ⟨⟨⟨⟨⟨hne, hfirst⟩, hlast⟩, hplain⟩, hwildcard⟩, hcomma⟩
    refine ⟨by simpa using hne, hfirst, hlast, ?_, by simpa using hwildcard, ?_⟩
    · simpa [and_assoc] using hplain
    · rintro rfl
      simpa using hcomma

instance (inList : Bool) (cs : List Char) : Decidable (IsName inList cs) :=
  decidable_of_iff' _ isName_iff

/-- A type that is made of names and wildcards.  The wildcards with bounds have no marks. -/
inductive Shaped : Bool → TypeRef → Prop
  | any (inList nullable : Bool) (dimensions : Nat) :
      Shaped inList ⟨anyWildcard, nullable, dimensions, []⟩
  | bounded {inList : Bool} {name : String} {bound : TypeRef} :
      name = upperWildcard ∨ name = lowerWildcard → Shaped inList bound →
        Shaped inList (bounded name bound)
  | named {inList : Bool} {name : String} {params : List TypeRef} (nullable : Bool)
      (dimensions : Nat) :
      IsName inList name.toList → (∀ p ∈ params, Shaped true p) →
        Shaped inList ⟨name, nullable, dimensions, params⟩

theorem IsName.not_wildcard {inList : Bool} {name : String} (h : IsName inList name.toList) :
    isWildcardName name = false := by
  rw [← Bool.not_eq_true]
  intro hwild
  have hmem : name ∈ [anyWildcard, upperWildcard, lowerWildcard] := by
    simpa [isWildcardName] using hwild
  rcases List.mem_cons.1 hmem with rfl | hmem
  · exact h.noWildcard (by decide)
  rcases List.mem_cons.1 hmem with rfl | hmem
  · exact h.noWildcard (by decide)
  · rw [List.mem_singleton.1 hmem] at h
    exact h.noWildcard (by decide)

theorem tree_any (nullable : Bool) (dimensions : Nat) :
    tree ⟨anyWildcard, nullable, dimensions, []⟩ =
      .char '?' :: Piece.marks dimensions nullable := by
  rw [tree, trees, Piece.shape_named (by simp)]
  rfl

theorem tree_bounded {name : String} (hname : name = upperWildcard ∨ name = lowerWildcard)
    (bound : TypeRef) :
    tree (bounded name bound) = name.toList.map .char ++ .char ' ' :: tree bound := by
  rw [bounded, tree, trees, trees, Piece.shape]
  rcases hname with rfl | rfl <;> decide

theorem tree_named {inList : Bool} {name : String} (hname : IsName inList name.toList)
    (nullable : Bool) (dimensions : Nat) (params : List TypeRef) :
    tree ⟨name, nullable, dimensions, params⟩ = name.toList.map .char ++
      ((if params.isEmpty then [] else [.list (Piece.joined (params.map tree))]) ++
        Piece.marks dimensions nullable) := by
  rw [tree, Piece.shape_named (by simp [hname.not_wildcard]), trees_eq_map, List.isEmpty_map]

namespace Piece

/-! ## First and last pieces -/

/-- The run has pieces, and neither the first nor the last of them is white space. -/
def Solid (ps : List Piece) : Prop :=
  ps ≠ [] ∧ (∀ p ∈ ps.head?, p.isBlank = false) ∧ ∀ p ∈ ps.getLast?, p.isBlank = false

theorem Solid.append {ps qs : List Piece} (h : Solid ps)
    (hqs : ∀ q ∈ qs.getLast?, q.isBlank = false) : Solid (ps ++ qs) := by
  obtain ⟨hne, hfirst, hlast⟩ := h
  refine ⟨by simp [hne], ?_, ?_⟩
  · rwa [List.head?_append_of_ne_nil _ hne]
  · intro p hp
    rw [List.getLast?_append] at hp
    cases hq : qs.getLast? with
    | none => exact hlast p (by simpa [hq] using hp)
    | some q => exact hqs p (by simpa [hq] using hp)

theorem trimEnd_eq_self {ps : List Piece} (h : ∀ p ∈ ps.getLast?, p.isBlank = false) :
    trimEnd ps = ps := by
  cases ps using List.reverseRecOn with
  | nil => rfl
  | append_singleton ps p =>
      rw [trimEnd, List.rdropWhile_concat, h p (by simp), if_neg Bool.false_ne_true]

theorem trimStart_eq_self {ps : List Piece} (h : ∀ p ∈ ps.head?, p.isBlank = false) :
    trimStart ps = ps := by
  cases ps with
  | nil => rfl
  | cons p ps => rw [trimStart, List.dropWhile_cons, h p (by simp), if_neg Bool.false_ne_true]

theorem Solid.trim_eq {ps : List Piece} (h : Solid ps) : trim ps = ps := by
  rw [trim, trimStart_eq_self h.2.1, trimEnd_eq_self h.2.2]

theorem trim_blank {p : Piece} (hp : p.isBlank = true) (ps : List Piece) :
    trim (p :: ps) = trim ps := by
  rw [trim, trimStart, List.dropWhile_cons, if_pos hp]
  rfl

theorem readTree_blank {p : Piece} (hp : p.isBlank = true) (ps : List Piece) :
    readTree (p :: ps) = readTree ps := by
  have htrim := trim_blank hp ps
  by_cases hwild : ∃ rest, trim ps = .char '?' :: rest
  · obtain ⟨rest, hrest⟩ := hwild
    rw [readTree_wildcard hrest, readTree_wildcard (htrim.trans hrest)]
  · have hplain : ∀ rest, trim ps ≠ .char '?' :: rest := fun rest h => hwild ⟨rest, h⟩
    rw [readTree_plain hplain, readTree_plain (htrim ▸ hplain), htrim]

theorem solid_chars {inList : Bool} {cs : List Char} (h : IsName inList cs) :
    Solid (cs.map .char) := by
  refine ⟨by simpa using h.nonempty, ?_, ?_⟩
  · intro p hp
    rw [List.head?_map] at hp
    obtain ⟨c, hc, rfl⟩ := Option.map_eq_some_iff.1 hp
    exact h.first c hc
  · intro p hp
    rw [List.getLast?_map] at hp
    obtain ⟨c, hc, rfl⟩ := Option.map_eq_some_iff.1 hp
    exact h.last c hc

theorem marks_zero_false : marks 0 false = [] := rfl

theorem marks_true (dimensions : Nat) :
    marks dimensions true = marks dimensions false ++ [.char '?'] := by
  simp [marks]

theorem marks_succ (dimensions : Nat) :
    marks (dimensions + 1) false = marks dimensions false ++ [.char '[', .char ']'] := by
  simp [marks, List.replicate_succ']

theorem getLast?_marks (dimensions : Nat) (nullable : Bool) :
    ∀ p ∈ (marks dimensions nullable).getLast?, p.isBlank = false := by
  intro p hp
  cases nullable with
  | true =>
      rw [marks_true, List.getLast?_concat] at hp
      cases hp
      decide
  | false =>
      cases dimensions with
      | zero => cases hp
      | succ d =>
          rw [marks_succ, List.getLast?_append] at hp
          cases hp
          decide

/-! ## Taking the marks off again -/

theorem endsIn_concat_char (c d : Char) (ps : List Piece) :
    endsIn c (ps ++ [.char d]) = (d == c) := by
  rw [endsIn, List.getLast?_concat]
  rfl

theorem takeMark_concat (ps : List Piece) (h : ∀ p ∈ ps.getLast?, p.isBlank = false) :
    takeMark (ps ++ [.char '?']) = (ps, true) := by
  rw [takeMark, endsIn_concat_char, if_pos (by decide), List.dropLast_concat, trimEnd_eq_self h]

theorem takeArrays_pair (ps : List Piece) :
    takeArrays (ps ++ [.char '[', .char ']']) =
      ((takeArrays (trimEnd ps)).1, (takeArrays (trimEnd ps)).2 + 1) := by
  have hsplit : ps ++ [.char '[', .char ']'] = ps ++ [char '['] ++ [char ']'] := by simp
  have hends : (endsIn ']' (ps ++ [char '['] ++ [char ']']) &&
      endsIn '[' (ps ++ [char '['] ++ [char ']']).dropLast) = true := by
    rw [List.dropLast_concat, endsIn_concat_char, endsIn_concat_char]
    rfl
  rw [hsplit, takeArrays, dif_pos hends, List.dropLast_concat, List.dropLast_concat]

theorem takeArrays_marks {core : List Piece} (h : Solid core) (dimensions : Nat) :
    takeArrays (core ++ marks dimensions false) =
      ((takeArrays core).1, (takeArrays core).2 + dimensions) := by
  induction dimensions with
  | zero => rw [marks_zero_false, List.append_nil, Nat.add_zero]
  | succ d ih =>
      rw [marks_succ, ← List.append_assoc,
        takeArrays_pair, trimEnd_eq_self (h.append (getLast?_marks d false)).2.2, ih, Nat.add_assoc]

/-- The question mark at the end, if there is one, is taken off first. -/
theorem takeMark_marks {core : List Piece} (h : Solid core) {dimensions : Nat} {nullable : Bool}
    (hmarks : nullable = true ∨ dimensions ≠ 0) :
    takeMark (core ++ marks dimensions nullable) = (core ++ marks dimensions false, nullable) := by
  cases nullable with
  | true =>
      rw [marks_true, ← List.append_assoc,
        takeMark_concat _ (h.append (getLast?_marks dimensions false)).2.2]
  | false =>
      obtain ⟨d, rfl⟩ : ∃ d, dimensions = d + 1 := ⟨dimensions - 1, by simp at hmarks; omega⟩
      have hsplit : core ++ marks (d + 1) false =
          (core ++ marks d false ++ [.char '[']) ++ [.char ']'] := by simp [marks_succ]
      rw [takeMark, hsplit, endsIn_concat_char, if_neg (by decide)]

theorem takeMarks_of_marks {core : List Piece} (h : Solid core) {dimensions : Nat}
    {nullable : Bool} (hmarks : nullable = true ∨ dimensions ≠ 0) :
    takeMarks (core ++ marks dimensions nullable) = {
      core := (takeMark (takeArrays core).1).1,
      dimensions := (takeArrays core).2 + dimensions,
      nullable := nullable || (takeMark (takeArrays core).1).2 } := by
  simp only [takeMarks, takeMark_marks h hmarks, takeArrays_marks h]

/-- The run ends with a mark of a type. -/
def EndsMarked (ps : List Piece) : Prop := [.char '?'] <:+ ps ∨ [.char '[', .char ']'] <:+ ps

theorem takeMark_eq_self {ps : List Piece} (h : ¬ EndsMarked ps) : takeMark ps = (ps, false) := by
  rw [takeMark, if_neg]
  intro hends
  obtain ⟨qs, rfl⟩ := endsIn_iff.1 hends
  exact h (.inl (List.suffix_append _ _))

theorem takeArrays_eq_self {ps : List Piece} (h : ¬ [.char '[', .char ']'] <:+ ps) :
    takeArrays ps = (ps, 0) := by
  rw [takeArrays, dif_neg]
  intro hends
  obtain ⟨hclose, hopen⟩ := Bool.and_eq_true_iff.1 hends
  obtain ⟨qs, rfl⟩ := endsIn_iff.1 hclose
  rw [List.dropLast_concat] at hopen
  obtain ⟨qs, rfl⟩ := endsIn_iff.1 hopen
  exact h ⟨qs, by simp⟩

/-- The marks behind a core that ends with none are what is taken off. -/
theorem takeMarks_append {core : List Piece} (h : Solid core) (hcore : ¬ EndsMarked core)
    (dimensions : Nat) (nullable : Bool) :
    takeMarks (core ++ marks dimensions nullable) = { core, dimensions, nullable } := by
  have harrays : takeArrays core = (core, 0) := takeArrays_eq_self fun h => hcore (.inr h)
  by_cases hmarks : nullable = true ∨ dimensions ≠ 0
  · rw [takeMarks_of_marks h hmarks]
    simp [harrays, takeMark_eq_self hcore]
  · obtain ⟨rfl, rfl⟩ : nullable = false ∧ dimensions = 0 := by simpa using hmarks
    rw [marks_zero_false, List.append_nil]
    simp [takeMarks, harrays, takeMark_eq_self hcore]

theorem length_takeMark_le (ps : List Piece) : (takeMark ps).1.length ≤ ps.length :=
  (isCore_takeMark ps).isInfix.length_le

theorem length_takeArrays_le (ps : List Piece) : (takeArrays ps).1.length ≤ ps.length :=
  (isCore_takeArrays ps).isInfix.length_le

theorem length_trimEnd_le (ps : List Piece) : (trimEnd ps).length ≤ ps.length :=
  (isCore_trimEnd ps).isInfix.length_le

theorem not_brackets_of_mark {ps : List Piece} (h : [.char '?'] <:+ ps) :
    ¬ [.char '[', .char ']'] <:+ ps := by
  rintro ⟨qs, hqs⟩
  obtain ⟨qs', rfl⟩ := h
  have hlast := congrArg List.getLast? hqs
  rw [List.getLast?_concat, List.getLast?_append] at hlast
  cases hlast

/-- Something is taken off a core that ends with a mark. -/
theorem length_takeMarks_lt {core : List Piece} (h : Solid core) (hcore : EndsMarked core)
    (dimensions : Nat) (nullable : Bool) :
    (takeMarks (core ++ marks dimensions nullable)).core.length < core.length := by
  have hmark : [.char '?'] <:+ core → (takeMark core).1.length < core.length := by
    rintro ⟨qs, rfl⟩
    have hlength := length_trimEnd_le qs
    rw [takeMark, endsIn_concat_char, if_pos (by decide), List.dropLast_concat]
    simp
    omega
  have harrays : [.char '[', .char ']'] <:+ core →
      (takeArrays core).1.length < core.length := by
    rintro ⟨qs, rfl⟩
    have hlength := (length_takeArrays_le (trimEnd qs)).trans (length_trimEnd_le qs)
    rw [takeArrays_pair]
    simp
    omega
  by_cases hmarks : nullable = true ∨ dimensions ≠ 0
  · rw [takeMarks_of_marks h hmarks]
    rcases hcore with hcore | hcore
    · rw [takeArrays_eq_self (not_brackets_of_mark hcore)]
      exact hmark hcore
    · exact (length_takeMark_le _).trans_lt (harrays hcore)
  · obtain ⟨rfl, rfl⟩ : nullable = false ∧ dimensions = 0 := by simpa using hmarks
    rw [marks_zero_false, List.append_nil, takeMarks]
    rcases hcore with hcore | hcore
    · exact ((length_takeMark_le _).trans (length_takeArrays_le _)).trans_lt (hmark hcore)
    · have hself : takeMark core = (core, false) := by
        rw [takeMark, if_neg]
        intro hends
        obtain ⟨qs, hqs⟩ := endsIn_iff.1 hends
        exact not_brackets_of_mark ⟨qs, hqs.symm⟩ hcore
      rw [hself]
      exact (length_takeMark_le _).trans_lt (harrays hcore)

end Piece

end Outline.TypeRef
