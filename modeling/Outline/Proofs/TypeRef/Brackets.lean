import Mathlib.Data.List.Infix
import Outline.Proofs.TypeRef.Digits

/-!
# Bracket errors

`TypeRef.parse` takes the argument lists out of a text in one pass, with the open brackets on a
stack.  It comes to the same to look for the first closing bracket and the nearest opening bracket
before it, to put a marker in the place of the two and of what is between them, and to begin again
with the text that results (`substitute`).

* `cutLists_eq_substitute` — the pass and the loop come to the same.
* `cutLists_outcome`, `unbracketed_of_cutLists` — when the brackets of a text are an error, and
  what is left when they are none.
* `parse_outcome` — how each text is read, as far as its brackets tell.
-/

namespace Outline.TypeRef

/-! ## Texts without brackets -/

/-- The text has no angle brackets. -/
def Unbracketed (cs : List Char) : Prop := ∀ c ∈ cs, c ≠ '<' ∧ c ≠ '>'

namespace Unbracketed

variable {cs ds : List Char}

theorem append (h : Unbracketed cs) (h' : Unbracketed ds) : Unbracketed (cs ++ ds) := by
  intro c hc
  exact (List.mem_append.1 hc).elim (h c) (h' c)

theorem reverse (h : Unbracketed cs) : Unbracketed cs.reverse :=
  fun c hc => h c (List.mem_reverse.1 hc)

theorem not_mem_open (h : Unbracketed cs) : '<' ∉ cs := fun hc => (h _ hc).1 rfl

theorem not_mem_close (h : Unbracketed cs) : '>' ∉ cs := fun hc => (h _ hc).2 rfl

theorem marker (n : Nat) : Unbracketed (marker n) := by
  intro c hc
  rcases List.mem_cons.1 hc with rfl | hc
  · decide
  · have hdigit := Nat.isDigit_of_mem_toDigits (by decide) (by decide) hc
    constructor <;> rintro rfl <;> exact absurd hdigit (by decide)

end Unbracketed

/-! ## The loop -/

section First

variable {c : Char} {front : List Char} (h : c ∉ front) (rest : List Char)

include h

theorem all_bne : ∀ d ∈ front, (d != c) = true :=
  fun _ hd => bne_iff_ne.2 fun heq => h (heq ▸ hd)

theorem takeWhile_bne : (front ++ c :: rest).takeWhile (· != c) = front := by
  rw [List.takeWhile_append_of_pos (all_bne h), List.takeWhile_cons_of_neg (by simp),
    List.append_nil]

theorem dropWhile_bne : (front ++ c :: rest).dropWhile (· != c) = c :: rest := by
  rw [List.dropWhile_append_of_pos (all_bne h), List.dropWhile_cons_of_neg (by simp)]

theorem rtakeWhile_bne : (rest ++ c :: front).rtakeWhile (· != c) = front := by
  have hfront : c ∉ front.reverse := by rwa [List.mem_reverse]
  rw [List.rtakeWhile, List.reverse_append, List.reverse_cons, List.append_assoc,
    List.singleton_append, takeWhile_bne hfront, List.reverse_reverse]

theorem rdropWhile_bne : (rest ++ c :: front).rdropWhile (· != c) = rest ++ [c] := by
  have hfront : c ∉ front.reverse := by rwa [List.mem_reverse]
  rw [List.rdropWhile, List.reverse_append, List.reverse_cons, List.append_assoc,
    List.singleton_append, dropWhile_bne hfront, List.reverse_cons, List.reverse_reverse]

end First

/-- Putting a marker in the place of a pair of brackets takes a closing bracket away. -/
theorem count_close_lt {working : List Char} (h : '>' ∈ working) (n : Nat) :
    (((working.takeWhile (· != '>')).rdropWhile (· != '<')).dropLast ++
        (marker n ++ (working.dropWhile (· != '>')).tail)).count '>' < working.count '>' := by
  obtain ⟨front, rest, rfl, hfront⟩ := List.eq_append_cons_of_mem h
  rw [takeWhile_bne hfront, dropWhile_bne hfront, List.tail_cons]
  have hbefore : '>' ∉ (front.rdropWhile (· != '<')).dropLast := fun hc =>
    hfront ((List.rdropWhile_prefix _ _).subset ((List.dropLast_prefix _).subset hc))
  simp only [List.count_append, List.count_eq_zero.2 hbefore, List.count_eq_zero.2 hfront,
    List.count_eq_zero.2 (Unbracketed.marker n).not_mem_close, List.count_cons_self]
  omega

/-- Puts markers in the place of argument lists.  The first closing bracket and the nearest opening
bracket before it are the next pair; the lists that have been replaced are in `lists`. -/
def substitute (lists : List (List Char)) (working : List Char) :
    Except TypeErrorCause (List Char × List (List Char)) :=
  if _h : '>' ∈ working then
    let front := working.takeWhile (· != '>')
    if '<' ∈ front then
      substitute (lists ++ [front.rtakeWhile (· != '<')])
        ((front.rdropWhile (· != '<')).dropLast ++
          (marker lists.length ++ (working.dropWhile (· != '>')).tail))
    else .error .unmatchedClose
  else if '<' ∈ working then .error .unmatchedOpen
  else .ok (working, lists)
termination_by working.count '>'
decreasing_by exact count_close_lt _h lists.length

theorem substitute_pair {before list : List Char} (hbefore : '>' ∉ before)
    (hlist : Unbracketed list) (lists : List (List Char)) (rest : List Char) :
    substitute lists (before ++ '<' :: (list ++ '>' :: rest)) =
      substitute (lists ++ [list]) (before ++ (marker lists.length ++ rest)) := by
  have hfront : '>' ∉ before ++ '<' :: list := by simp [hbefore, hlist.not_mem_close]
  have hworking : before ++ '<' :: (list ++ '>' :: rest) =
      (before ++ '<' :: list) ++ '>' :: rest := by simp
  rw [substitute, hworking, dif_pos (by simp)]
  simp only [takeWhile_bne hfront, dropWhile_bne hfront, rtakeWhile_bne hlist.not_mem_open,
    rdropWhile_bne hlist.not_mem_open, List.dropLast_concat, List.tail_cons]
  rw [if_pos (by simp)]

theorem substitute_close {front : List Char} (hfront : Unbracketed front)
    (lists : List (List Char)) (rest : List Char) :
    substitute lists (front ++ '>' :: rest) = .error .unmatchedClose := by
  rw [substitute, dif_pos (by simp)]
  simp only [takeWhile_bne hfront.not_mem_close]
  rw [if_neg hfront.not_mem_open]

theorem substitute_end {working : List Char} (h : '>' ∉ working) (lists : List (List Char)) :
    substitute lists working =
      if '<' ∈ working then .error .unmatchedOpen else .ok (working, lists) := by
  rw [substitute, dif_neg h]

/-- The text up to the innermost open bracket. -/
def opened : List (List Char) → List Char
  | [] => []
  | before :: outer => opened outer ++ (before.reverse ++ ['<'])

theorem not_mem_opened {outer : List (List Char)} (h : ∀ before ∈ outer, Unbracketed before) :
    '>' ∉ opened outer := by
  induction outer with
  | nil => simp [opened]
  | cons before outer ih =>
      have hbefore := (h before (by simp)).not_mem_close
      simp [opened, hbefore, ih fun before hb => h before (by simp [hb])]

/-- The pass over the rest of the text does what the loop does with the markers and the rest. -/
theorem cutLists_eq {outer : List (List Char)} (houter : ∀ before ∈ outer, Unbracketed before)
    {inner : List Char} (hinner : Unbracketed inner) (lists : List (List Char)) (cs : List Char) :
    cutLists outer inner lists cs =
      substitute lists.reverse (opened outer ++ (inner.reverse ++ cs)) := by
  induction cs generalizing outer inner lists with
  | nil =>
      have hclose : '>' ∉ opened outer ++ (inner.reverse ++ []) := by
        simp [not_mem_opened houter, hinner.not_mem_close]
      rw [cutLists, substitute_end hclose]
      cases outer with
      | nil => simp [opened, hinner.not_mem_open]
      | cons before outer => simp [opened]
  | cons c cs ih =>
      by_cases hopen : c = '<'
      · subst hopen
        have hboth : ∀ before ∈ inner :: outer, Unbracketed before := by
          rintro before (_ | ⟨_, hbefore⟩)
          · exact hinner
          · exact houter before hbefore
        rw [Piece.cutLists_open, ih hboth (by simp [Unbracketed])]
        simp [opened]
      by_cases hclose : c = '>'
      · subst hclose
        cases outer with
        | nil =>
            rw [opened, List.nil_append, substitute_close hinner.reverse]
            simp [cutLists]
        | cons before outer =>
            obtain ⟨hbefore, houter⟩ := List.forall_mem_cons.1 houter
            have hfront : '>' ∉ opened outer ++ before.reverse := by
              simp [not_mem_opened houter, hbefore.not_mem_close]
            have hpair := substitute_pair hfront hinner.reverse lists.reverse cs
            rw [List.length_reverse] at hpair
            rw [Piece.cutLists_close,
              ih houter ((Unbracketed.marker _).reverse.append hbefore)]
            simpa [opened] using hpair.symm
      · have hplain : Unbracketed (c :: inner) := List.forall_mem_cons.2 ⟨⟨hopen, hclose⟩, hinner⟩
        rw [Piece.cutLists_other ⟨hopen, hclose⟩, ih houter hplain]
        simp

/-- The pass and the loop come to the same. -/
theorem cutLists_eq_substitute (cs : List Char) : cutLists [] [] [] cs = substitute [] cs :=
  cutLists_eq (by simp) (by simp [Unbracketed]) [] cs

/-! ## Errors of the brackets -/

/-- With `k` brackets open in front of the text, a beginning of it closes one too many. -/
def Overclosed (k : Nat) (cs : List Char) : Prop :=
  ∃ front, front <+: cs ∧ front.count '<' + k < front.count '>'

theorem not_overclosed_nil (k : Nat) : ¬ Overclosed k [] := by
  rintro ⟨front, hfront, hcount⟩
  rw [List.prefix_nil.1 hfront] at hcount
  simp at hcount

theorem overclosed_cons {k k' : Nat} {c : Char} {cs : List Char}
    (h : ∀ front : List Char, (c :: front).count '<' + k < (c :: front).count '>' ↔
      front.count '<' + k' < front.count '>') : Overclosed k (c :: cs) ↔ Overclosed k' cs := by
  constructor
  · rintro ⟨front, hfront, hcount⟩
    rcases List.prefix_cons_iff.1 hfront with rfl | ⟨rest, rfl, hrest⟩
    · simp at hcount
    · exact ⟨rest, hrest, (h rest).1 hcount⟩
  · rintro ⟨front, hfront, hcount⟩
    exact ⟨c :: front, List.cons_prefix_cons.2 ⟨rfl, hfront⟩, (h front).2 hcount⟩

/-- What the brackets of a text say about cutting its lists out, with `k` brackets open in front
of it. -/
inductive CutOutcome (k : Nat) (cs : List Char) :
    Except TypeErrorCause (List Char × List (List Char)) → Prop where
  /-- A bracket too many is closed. -/
  | unmatchedClose (exceeds : Overclosed k cs) : CutOutcome k cs (.error .unmatchedClose)
  /-- A bracket stays open. -/
  | unmatchedOpen (fronts : ¬ Overclosed k cs) (more : cs.count '>' < cs.count '<' + k) :
      CutOutcome k cs (.error .unmatchedOpen)
  /-- The brackets match. -/
  | cut (fronts : ¬ Overclosed k cs) (same : cs.count '>' = cs.count '<' + k)
      (found : List Char × List (List Char)) : CutOutcome k cs (.ok found)

theorem CutOutcome.cons {k k' : Nat} {c : Char} {cs : List Char}
    {r : Except TypeErrorCause (List Char × List (List Char))}
    (hcount : ∀ front : List Char, (c :: front).count '<' + k + front.count '>' =
      front.count '<' + k' + (c :: front).count '>')
    (h : CutOutcome k' cs r) : CutOutcome k (c :: cs) r := by
  have hover : Overclosed k (c :: cs) ↔ Overclosed k' cs := overclosed_cons fun front => by
    have := hcount front
    omega
  have hall := hcount cs
  cases h with
  | unmatchedClose exceeds => exact .unmatchedClose (hover.2 exceeds)
  | unmatchedOpen fronts more => exact .unmatchedOpen (fun h => fronts (hover.1 h)) (by omega)
  | cut fronts same found => exact .cut (fun h => fronts (hover.1 h)) (by omega) found

/-- The brackets of a text decide whether its lists can be cut out. -/
theorem cutLists_outcome (outer : List (List Char)) (inner : List Char) (lists : List (List Char))
    (cs : List Char) : CutOutcome outer.length cs (cutLists outer inner lists cs) := by
  induction cs generalizing outer inner lists with
  | nil =>
      rw [cutLists]
      cases outer with
      | nil => exact .cut (not_overclosed_nil 0) rfl _
      | cons before outer => exact .unmatchedOpen (not_overclosed_nil _) (by simp)
  | cons c cs ih =>
      by_cases hopen : c = '<'
      · subst hopen
        rw [Piece.cutLists_open]
        exact (ih _ _ _).cons fun front => by simp; omega
      by_cases hclose : c = '>'
      · subst hclose
        cases outer with
        | nil =>
            have hover : Overclosed 0 ('>' :: cs) := ⟨['>'], ⟨cs, rfl⟩, by decide⟩
            simpa [cutLists] using CutOutcome.unmatchedClose hover
        | cons before outer =>
            rw [Piece.cutLists_close]
            exact (ih _ _ _).cons fun front => by simp; omega
      · rw [Piece.cutLists_other ⟨hopen, hclose⟩]
        exact (ih _ _ _).cons fun front => by simp [hopen, hclose]

/-- No bracket is left in the text or in the lists that are cut out of it, and there is one list
for each closing bracket. -/
theorem unbracketed_of_cutLists {outer : List (List Char)}
    (houter : ∀ before ∈ outer, Unbracketed before) {inner : List Char}
    (hinner : Unbracketed inner) {lists : List (List Char)}
    (hlists : ∀ list ∈ lists, Unbracketed list) {cs flat : List Char} {found : List (List Char)}
    (h : cutLists outer inner lists cs = .ok (flat, found)) :
    Unbracketed flat ∧ (∀ list ∈ found, Unbracketed list) ∧
      found.length = lists.length + cs.count '>' := by
  induction cs generalizing outer inner lists with
  | nil =>
      rw [cutLists] at h
      split at h
      · cases h
        exact ⟨hinner.reverse, fun list hlist => hlists list (List.mem_reverse.1 hlist), by simp⟩
      · cases h
  | cons c cs ih =>
      by_cases hopen : c = '<'
      · subst hopen
        rw [Piece.cutLists_open] at h
        have hboth : ∀ before ∈ inner :: outer, Unbracketed before :=
          List.forall_mem_cons.2 ⟨hinner, houter⟩
        simpa using ih hboth (by simp [Unbracketed]) hlists h
      by_cases hclose : c = '>'
      · subst hclose
        cases outer with
        | nil => simp [cutLists] at h
        | cons before outer =>
            obtain ⟨hbefore, houter⟩ := List.forall_mem_cons.1 houter
            rw [Piece.cutLists_close] at h
            obtain ⟨hflat, hfound, hlength⟩ :=
              ih houter ((Unbracketed.marker _).reverse.append hbefore)
                (List.forall_mem_cons.2 ⟨hinner.reverse, hlists⟩) h
            refine ⟨hflat, hfound, ?_⟩
            rw [List.length_cons] at hlength
            rw [hlength, List.count_cons_self]
            omega
      · rw [Piece.cutLists_other ⟨hopen, hclose⟩] at h
        have hplain : Unbracketed (c :: inner) := List.forall_mem_cons.2 ⟨⟨hopen, hclose⟩, hinner⟩
        simpa [hclose] using ih houter hplain hlists h

/-! ## Errors behind the brackets -/

/-- Every error is that of a name or of a marker. -/
def FailsBehind {α : Type} (r : Except TypeErrorCause α) : Prop :=
  ∀ e, r = .error e → e = .missingName ∨ e = .invalidMarker

namespace FailsBehind

variable {α β : Type} {r : Except TypeErrorCause α}

theorem ok (a : α) : FailsBehind (.ok a) := by
  rintro e ⟨⟩

theorem bind {f : α → Except TypeErrorCause β} (h : FailsBehind r) (hf : ∀ a, FailsBehind (f a)) :
    FailsBehind (r >>= f) := by
  cases r with
  | error cause => exact fun e he => h e (by cases he; rfl)
  | ok a => exact hf a

theorem map {f : α → β} (h : FailsBehind r) : FailsBehind (r.map f) := by
  cases r with
  | error cause => exact fun e he => h e (by cases he; rfl)
  | ok a => exact ok _

theorem mapM {γ : Type} {read : γ → StateT ArgumentLists (Except TypeErrorCause) α}
    (h : ∀ c lists, FailsBehind (read c lists)) (cs : List γ) (lists : ArgumentLists) :
    FailsBehind (cs.mapM read lists) := by
  induction cs generalizing lists with
  | nil => exact ok _
  | cons c cs ih =>
      rw [List.mapM_cons]
      exact (h c lists).bind fun (_, _) => (ih _).bind fun _ => ok _

theorem takeList (digits : List Char) (lists : ArgumentLists) :
    FailsBehind (takeList digits lists) := by
  unfold TypeRef.takeList
  split
  · exact ok _
  · rintro e ⟨⟩
    exact .inr rfl

theorem named (s : Segment) (params : List TypeRef) : FailsBehind (s.named params) := by
  unfold Segment.named
  dsimp only
  split
  · rintro e ⟨⟩
    exact .inl rfl
  · exact ok _

theorem readParams {levels : Nat}
    (h : ∀ k < levels, ∀ cs lists, FailsBehind (readSegment k cs lists)) (core : List Char)
    (lists : ArgumentLists) : FailsBehind (readParams levels core lists) := by
  unfold TypeRef.readParams
  cases core.dropWhile (· != markerStart) with
  | nil => exact ok _
  | cons m digits =>
      cases levels with
      | zero =>
          rintro e ⟨⟩
          exact .inr rfl
      | succ k => exact (takeList _ _).bind fun _ => mapM (h k k.lt_succ_self) _ _

end FailsBehind

/-- Where the brackets of a text match, only a name or a marker of it can be wrong. -/
theorem failsBehind_readSegment (levels : Nat) (cs : List Char) (lists : ArgumentLists) :
    FailsBehind (readSegment levels cs lists) := by
  induction levels using Nat.strong_induction_on generalizing cs lists with
  | h levels ih =>
      rw [readSegment_eq]
      split
      · rintro e ⟨⟩
        exact .inl rfl
      · exact .ok _
      · exact (FailsBehind.readParams ih _ _).bind fun _ => (FailsBehind.named _ _).map

/-! ## The whole text -/

/-- The text is an error with the given cause, and the error carries the trimmed text. -/
def FailsWith (text : String) (cause : TypeErrorCause) : Prop :=
  parse text = .error ⟨cause, String.ofList (Text.trim text.toList)⟩

theorem failsWith_iff {text : String} {cause : TypeErrorCause} :
    FailsWith text cause ↔ parseChars (Text.trim text.toList) = .error cause := by
  unfold FailsWith parse
  dsimp only
  cases parseChars (Text.trim text.toList) with
  | ok t => simp [Except.mapError]
  | error cause' => simp [Except.mapError]

/-- Behind matching brackets the lists that are cut out are read. -/
theorem parseChars_cut {cs flat : List Char} {lists : List (List Char)} (hmark : '#' ∉ cs)
    (h : cutLists [] [] [] cs = .ok (flat, lists)) :
    parseChars cs = (readSegment lists.length flat (lists.map some)).map (·.1) := by
  rw [parseChars, if_neg (by simpa [markerStart] using hmark), h]
  simp only [bind, Except.bind, StateT.run, pure, Except.pure]
  cases readSegment lists.length flat (lists.map some) <;> rfl

theorem parseChars_cut_error {cs : List Char} {cause : TypeErrorCause} (hmark : '#' ∉ cs)
    (h : cutLists [] [] [] cs = .error cause) : parseChars cs = .error cause := by
  rw [parseChars, if_neg (by simpa [markerStart] using hmark), h]
  rfl

/-- How a text is read that has no character of markers. -/
inductive ReadOutcome (cs : List Char) : Prop where
  /-- A bracket too many is closed. -/
  | unmatchedClose (exceeds : Overclosed 0 cs) (read : parseChars cs = .error .unmatchedClose)
  /-- A bracket stays open. -/
  | unmatchedOpen (fronts : ¬ Overclosed 0 cs) (more : cs.count '>' < cs.count '<')
      (read : parseChars cs = .error .unmatchedOpen)
  /-- The lists are cut out, and only a name or a marker can be wrong. -/
  | cut (fronts : ¬ Overclosed 0 cs) (same : cs.count '>' = cs.count '<') (flat : List Char)
      (lists : List (List Char)) (found : cutLists [] [] [] cs = .ok (flat, lists))
      (read : FailsBehind (parseChars cs))

theorem readOutcome {cs : List Char} (hmark : '#' ∉ cs) : ReadOutcome cs := by
  have houtcome := cutLists_outcome [] [] [] cs
  generalize hcut : cutLists [] [] [] cs = r at houtcome
  cases houtcome with
  | unmatchedClose exceeds => exact .unmatchedClose exceeds (parseChars_cut_error hmark hcut)
  | unmatchedOpen fronts more => exact .unmatchedOpen fronts more (parseChars_cut_error hmark hcut)
  | cut fronts same found =>
      obtain ⟨flat, lists⟩ := found
      refine .cut fronts same flat lists hcut ?_
      rw [parseChars_cut hmark hcut]
      exact (failsBehind_readSegment _ _ _).map

theorem parseChars_reserved_iff {cs : List Char} :
    parseChars cs = .error .reservedCharacter ↔ '#' ∈ cs := by
  constructor
  · intro h
    by_contra hmark
    cases readOutcome hmark with
    | unmatchedClose exceeds read => simp [read] at h
    | unmatchedOpen fronts more read => simp [read] at h
    | cut fronts same flat lists found read => simpa using read _ h
  · intro h
    rw [parseChars, if_pos (by simpa [markerStart] using h)]

theorem parseChars_unmatchedClose_iff {cs : List Char} :
    parseChars cs = .error .unmatchedClose ↔ '#' ∉ cs ∧ Overclosed 0 cs := by
  by_cases hmark : '#' ∈ cs
  · simp [parseChars_reserved_iff.2 hmark, hmark]
  cases readOutcome hmark with
  | unmatchedClose exceeds read => simp [read, hmark, exceeds]
  | unmatchedOpen fronts more read => simp [read, fronts]
  | cut fronts same flat lists found read =>
      simp only [fronts, and_false, iff_false]
      exact fun h => by simpa using read _ h

theorem parseChars_unmatchedOpen_iff {cs : List Char} :
    parseChars cs = .error .unmatchedOpen ↔
      '#' ∉ cs ∧ ¬ Overclosed 0 cs ∧ cs.count '>' < cs.count '<' := by
  by_cases hmark : '#' ∈ cs
  · simp [parseChars_reserved_iff.2 hmark, hmark]
  cases readOutcome hmark with
  | unmatchedClose exceeds read => simp [read, exceeds]
  | unmatchedOpen fronts more read => simp [read, hmark, fronts, more]
  | cut fronts same flat lists found read =>
      simp only [same, lt_self_iff_false, and_false, iff_false]
      exact fun h => by simpa using read _ h

/-- How each text is read, as far as its brackets tell. -/
theorem parse_outcome (text : String) :
    let t := Text.trim text.toList
    let exceeds := ∃ front, front <+: t ∧ front.count '<' < front.count '>'
    let more := t.count '>' < t.count '<'
    cutLists [] [] [] t = substitute [] t ∧
    (FailsWith text .reservedCharacter ↔ '#' ∈ t) ∧
    (FailsWith text .unmatchedClose ↔ '#' ∉ t ∧ exceeds) ∧
    (FailsWith text .unmatchedOpen ↔ '#' ∉ t ∧ ¬ exceeds ∧ more) ∧
    ('#' ∉ t → ¬ exceeds → ¬ more →
      (∃ flat lists, substitute [] t = .ok (flat, lists) ∧ Unbracketed flat ∧
        (∀ list ∈ lists, Unbracketed list) ∧ lists.length = t.count '<' ∧
        lists.length = t.count '>') ∧
      ((∃ r, parse text = .ok r) ∨ FailsWith text .missingName ∨ FailsWith text .invalidMarker)) ∧
    ∀ e, parse text = .error e → e.text = String.ofList t := by
  intro t exceeds more
  refine ⟨cutLists_eq_substitute t, failsWith_iff.trans parseChars_reserved_iff,
    failsWith_iff.trans parseChars_unmatchedClose_iff,
    failsWith_iff.trans parseChars_unmatchedOpen_iff, fun hmark hover hmore => ?_, fun e he => ?_⟩
  · cases readOutcome hmark with
    | unmatchedClose h read => exact absurd h hover
    | unmatchedOpen fronts h read => exact absurd h hmore
    | cut fronts same flat lists found read =>
        obtain ⟨hflat, hlists, hlength⟩ := unbracketed_of_cutLists (by simp)
          (by simp [Unbracketed]) (by simp) found
        rw [List.length_nil, Nat.zero_add] at hlength
        refine ⟨⟨flat, lists, cutLists_eq_substitute t ▸ found, hflat, hlists,
          hlength.trans same, hlength⟩, ?_⟩
        rw [failsWith_iff, failsWith_iff, parse]
        cases hread : parseChars t with
        | ok r => exact .inl ⟨r, rfl⟩
        | error cause => exact .inr ((read _ hread).imp (congrArg _) (congrArg _))
  · rw [parse] at he
    cases hread : parseChars t with
    | ok r => rw [hread] at he; cases he
    | error cause => rw [hread] at he; cases he; rfl

/-- Two nested lists are replaced, the inner one first. -/
theorem parse_outcome_nested :
    (∃ flat lists, substitute [] (Text.trim "a<b<c>>".toList) = .ok (flat, lists) ∧
      Unbracketed flat ∧ lists.length = 2) ∧ ¬ FailsWith "a<b<c>>" .unmatchedOpen := by
  obtain ⟨-, -, -, hopen, hmatched, -⟩ := parse_outcome "a<b<c>>"
  have ht : Text.trim "a<b<c>>".toList = ['a', '<', 'b', '<', 'c', '>', '>'] := by cbv
  rw [ht] at hopen hmatched ⊢
  have hmark : '#' ∉ ['a', '<', 'b', '<', 'c', '>', '>'] := by decide
  have hfronts : ∀ front ∈ ['a', '<', 'b', '<', 'c', '>', '>'].inits,
      ¬ front.count '<' < front.count '>' := by decide
  have hmore : ¬ ['a', '<', 'b', '<', 'c', '>', '>'].count '>' <
      ['a', '<', 'b', '<', 'c', '>', '>'].count '<' := by decide
  have hfit : ¬ ∃ front, front <+: ['a', '<', 'b', '<', 'c', '>', '>'] ∧
      front.count '<' < front.count '>' := by
    rintro ⟨front, hfront, h⟩
    exact hfronts front ((List.mem_inits _ _).2 hfront) h
  obtain ⟨⟨flat, lists, hloop, hflat, -, hlength, -⟩, -⟩ := hmatched hmark hfit hmore
  exact ⟨⟨flat, lists, hloop, hflat, hlength⟩, fun h => hmore (hopen.1 h).2.2⟩

end Outline.TypeRef
