import Outline.Proofs.Token.Cutting
import Outline.TypeRef.Parse

/-!
# The types that an identifier spells

The grammar of identifiers as a relation between a text and the type that it spells, by recursion
on the depth of the angle brackets like the scanner.  Whatever the scanner reads is a text of this
grammar.

* `IdentifierStyle.Spells` — the relation.
* `IdentifierStyle.exists_spells` — what the scanner reads spells a type.
-/

namespace Outline

namespace IdentifierStyle

/-! ## The grammar -/

/-- A dotted name, all of which the scanner reads as one. -/
def IsDotted (style : IdentifierStyle) (cs : List Char) : Prop :=
  style.scanDotted cs = some cs.length

instance (style : IdentifierStyle) (cs : List Char) : Decidable (style.IsDotted cs) :=
  inferInstanceAs (Decidable (style.scanDotted cs = some cs.length))

/-- Some spaces. -/
def gap (k : Nat) : List Char := List.replicate k ' '

/-- The question mark and the array brackets behind a type. -/
def marksText (nullable : Bool) (dimensions : Nat) : List Char :=
  (if nullable then ['?'] else []) ++ (List.replicate dimensions ['[', ']']).flatten

/-- A name with its marks and possibly a list of arguments, which `args` relates to the types in
it.  Only a nested type has a question mark. -/
inductive TypeText (style : IdentifierStyle) (nested : Bool)
    (args : List Char → List TypeRef → Prop) : List Char → TypeRef → Prop where
  /-- Without a list. -/
  | plain {name : String} {nullable : Bool} (dimensions : Nat)
      (dotted : style.IsDotted name.toList) (inside : nullable = true → nested = true) :
      TypeText style nested args (name.toList ++ marksText nullable dimensions)
        { name, nullable, dimensions }
  /-- With a list. -/
  | generic {name : String} {nullable : Bool} {list : List Char} {params : List TypeRef}
      (dimensions : Nat) (dotted : style.IsDotted name.toList)
      (inside : nullable = true → nested = true) (listed : args list params) :
      TypeText style nested args
        (name.toList ++ '<' :: (list ++ '>' :: marksText nullable dimensions))
        { name, nullable, dimensions, params }

/-- The keywords of wildcards with a bound, and the names of these wildcards. -/
def boundKeywords : List (String × String) :=
  [("extends", TypeRef.upperWildcard), ("super", TypeRef.lowerWildcard)]

/-- An argument: a type, which `type` relates to its text, or a wildcard. -/
inductive ArgumentText (style : IdentifierStyle) (type : List Char → TypeRef → Prop) :
    List Char → TypeRef → Prop where
  /-- A type. -/
  | type {cs : List Char} {t : TypeRef} (typed : type cs t) : ArgumentText style type cs t
  /-- A wildcard without a bound. -/
  | any (accepted : style.wildcards = true) :
      ArgumentText style type ['?'] (.simple TypeRef.anyWildcard)
  /-- A wildcard with a bound.  A space follows the keyword. -/
  | bound {keyword name : String} {cs : List Char} {t : TypeRef} (j k : Nat)
      (accepted : style.wildcards = true) (known : (keyword, name) ∈ boundKeywords)
      (typed : type cs t) :
      ArgumentText style type ('?' :: (gap j ++ (keyword.toList ++ ' ' :: (gap k ++ cs))))
        (.bounded name t)

/-- Arguments with commas between them, and spaces around the commas and at the end. -/
inductive ArgumentsText (arg : List Char → TypeRef → Prop) :
    List Char → List TypeRef → Prop where
  /-- The last argument. -/
  | last {cs : List Char} {t : TypeRef} (k : Nat) (argument : arg cs t) :
      ArgumentsText arg (cs ++ gap k) [t]
  /-- An argument and those behind it. -/
  | cons {cs list : List Char} {t : TypeRef} {ts : List TypeRef} (j k : Nat)
      (argument : arg cs t) (rest : ArgumentsText arg list ts) :
      ArgumentsText arg (cs ++ (gap j ++ ',' :: (gap k ++ list))) (t :: ts)

/-- The text between the angle brackets of a type with at most `depth` levels of them. -/
def ListText (style : IdentifierStyle) : (depth : Nat) → List Char → List TypeRef → Prop
  | 0, _, _ => False
  | depth + 1, cs, ts => ∃ k list, cs = gap k ++ list ∧
      ArgumentsText (ArgumentText style (TypeText style true (ListText style depth))) list ts

/-- The text of a type with at most `depth` levels of angle brackets. -/
def Spells (style : IdentifierStyle) (depth : Nat) (nested : Bool) :
    List Char → TypeRef → Prop :=
  TypeText style nested (ListText style depth)

/-! ## What the scanner reads -/

variable {style : IdentifierStyle} {cs : List Char} {n : Nat}

theorem take_spaces (cs : List Char) : cs.take (spaces cs) = gap (spaces cs) := by
  rw [spaces, ← List.prefix_iff_eq_take.1 (List.takeWhile_prefix _), gap, List.eq_replicate_iff]
  exact ⟨rfl, fun c hc => by simpa using List.mem_takeWhile_imp hc⟩

theorem isDotted_take (h : style.scanDotted cs = some n) : style.IsDotted (cs.take n) := by
  have hn := bounded_scanDotted style cs n h
  rw [IsDotted, (local_scanDotted style).take h hn, List.length_take, Nat.min_eq_left hn]

theorem take_scanArrays (cs : List Char) :
    ∃ d, cs.take (scanArrays cs) = (List.replicate d ['[', ']']).flatten := by
  fun_induction scanArrays cs with
  | case1 cs ih =>
      obtain ⟨d, hd⟩ := ih
      refine ⟨d + 1, ?_⟩
      rw [Nat.add_comm, List.take_succ_cons, List.take_succ_cons, hd, List.replicate_succ,
        List.flatten_cons]
      rfl
  | case2 => exact ⟨0, rfl⟩

theorem take_finish (nested : Bool) (cs : List Char) (n : Nat) :
    ∃ nullable dimensions, (nullable = true → nested = true) ∧
      cs.take (scanType.finish nested cs n) = cs.take n ++ marksText nullable dimensions := by
  rw [finish_eq]
  split
  · rename_i hmark
    obtain ⟨d, hd⟩ := take_scanArrays (cs.drop (n + 1))
    obtain ⟨rest, hrest⟩ := List.head?_eq_some_iff.1 hmark.2
    refine ⟨true, d, fun _ => hmark.1, ?_⟩
    rw [List.take_add, hd, List.take_add, hrest]
    simp [marksText]
  · obtain ⟨d, hd⟩ := take_scanArrays (cs.drop n)
    refine ⟨false, d, fun h => absurd h Bool.false_ne_true, ?_⟩
    rw [List.take_add, hd]
    rfl

/-- What a scanner reads is related to some value. -/
def Produces {α : Type} (scan : List Char → Option Nat) (P : List Char → α → Prop) : Prop :=
  ∀ cs n, scan cs = some n → ∃ a, P (cs.take n) a

theorem arguments_of_scan {arg : List Char → Option Nat} {P : List Char → TypeRef → Prop}
    (harg : Produces arg P) (h : scanArguments arg cs = some n) :
    ∃ list ts, cs.take n = list ++ ['>'] ∧ ArgumentsText P list ts := by
  induction hlen : cs.length using Nat.strong_induction_on generalizing cs n with
  | _ len ih =>
  subst hlen
  rw [scanArguments_eq, Option.bind_eq_some_iff] at h
  obtain ⟨m, hm, h⟩ := h
  obtain ⟨t, ht⟩ := harg cs m hm
  have hgap := take_spaces (cs.drop m)
  generalize spaces (cs.drop m) = j at h hgap
  -- the argument and the spaces behind it
  have hfront : cs.take (m + j) = cs.take m ++ gap j := by rw [List.take_add, hgap]
  split at h
  · rename_i rest hrest
    obtain ⟨k, hk, rfl⟩ := Option.map_eq_some_iff.1 h
    have hlen := congrArg List.length hrest
    rw [List.length_drop, List.length_cons] at hlen
    obtain ⟨list, ts, hlist, hts⟩ := ih _ (by rw [List.length_drop]; omega) hk rfl
    refine ⟨_, t :: ts, ?_, .cons j (spaces rest) ht hts⟩
    have hsplit : m + j + 1 + spaces rest + k = (m + j) + (1 + (spaces rest + k)) := by omega
    rw [hsplit, List.take_add, hfront, hrest, Nat.add_comm 1, List.take_succ_cons, List.take_add,
      take_spaces, hlist]
    simp
  · rename_i rest hrest
    cases h
    refine ⟨_, [t], ?_, .last j ht⟩
    rw [List.take_add, hfront, hrest, List.take_succ_cons, List.take_zero]
  · cases h

theorem take_boundMark {keyword : String} (h : (boundMark keyword).isPrefixOf cs = true) :
    ∃ k, spaces (cs.drop keyword.length) = k + 1 ∧
      cs.take (keyword.length + (k + 1)) = keyword.toList ++ ' ' :: gap k := by
  obtain ⟨k, hk⟩ : ∃ k, spaces (cs.drop keyword.length) = k + 1 :=
    ⟨_, (Nat.sub_add_cancel (spaces_pos_of_boundMark h)).symm⟩
  obtain ⟨rest, rfl⟩ := List.isPrefixOf_iff_prefix.1 h
  have hgap := take_spaces ((boundMark keyword ++ rest).drop keyword.length)
  refine ⟨k, hk, ?_⟩
  rw [hk] at hgap
  rw [List.take_add, hgap, boundMark, List.append_assoc, ← String.length_toList, List.take_left]
  rfl

theorem argument_of_scan {type : List Char → Option Nat} {P : List Char → TypeRef → Prop}
    (htype : Produces type P) : Produces (style.scanArgument type) (ArgumentText style P) := by
  intro cs n h
  by_cases hwild : style.wildcards = true ∧ cs.head? = some '?'
  case neg =>
    rw [scanArgument_plain hwild] at h
    obtain ⟨t, ht⟩ := htype cs n h
    exact ⟨t, .type ht⟩
  obtain ⟨hw, hhead⟩ := hwild
  obtain ⟨cs, rfl⟩ := List.head?_eq_some_iff.1 hhead
  rcases exists_of_scanArgument hw h with ⟨keyword, hmem, m, hm, rfl⟩ | ⟨-, rfl⟩
  · obtain ⟨name, hname⟩ : ∃ name, (keyword, name) ∈ boundKeywords := by
      simp only [List.mem_cons, List.not_mem_nil, or_false] at hmem
      rcases hmem with rfl | rfl
      · exact ⟨_, List.mem_cons_self ..⟩
      · exact ⟨_, List.mem_cons_of_mem _ (List.mem_cons_self ..)⟩
    rw [scanBound_eq] at hm
    split at hm
    · rename_i hmark
      obtain ⟨i, hi, rfl⟩ := Option.map_eq_some_iff.1 (Option.some.inj hm)
      obtain ⟨k, hk, htake⟩ := take_boundMark hmark
      rw [hk] at hi ⊢
      obtain ⟨t, ht⟩ := htype _ _ hi
      refine ⟨.bounded name t, ?_⟩
      have hsplit : 1 + spaces cs + (keyword.length + (k + 1) + i) =
          (spaces cs + (keyword.length + (k + 1) + i)) + 1 := by omega
      rw [hsplit, List.take_succ_cons, List.take_add, take_spaces, List.take_add, htake,
        List.append_assoc, List.cons_append]
      exact .bound (spaces cs) k hw hname ht
    · cases hm
  · exact ⟨_, .any hw⟩

theorem type_of_scan {depth : Nat}
    (hlist : ∀ cs k, style.scanList depth cs = some k →
      ∃ list ts, cs.take k = '<' :: (list ++ ['>']) ∧ ListText style depth list ts)
    (nested : Bool) : Produces (style.scanType depth nested) (style.Spells depth nested) := by
  intro cs n h
  rw [scanType_eq, Option.bind_eq_some_iff] at h
  obtain ⟨m, hm, h⟩ := h
  have hname : style.IsDotted (String.ofList (cs.take m)).toList := by
    rw [String.toList_ofList]
    exact isDotted_take hm
  have hplain : some (scanType.finish nested cs m) = some n →
      ∃ t, style.Spells depth nested (cs.take n) t := by
    intro h
    obtain ⟨nullable, d, hinside, htake⟩ := take_finish nested cs m
    have htext : TypeText style nested (ListText style depth)
        ((String.ofList (cs.take m)).toList ++ marksText nullable d) _ := .plain d hname hinside
    rw [String.toList_ofList, ← htake, Option.some.inj h] at htext
    exact ⟨_, htext⟩
  split at h
  · split at h
    · rename_i k hk
      obtain ⟨list, ts, hlisted, hts⟩ := hlist _ _ hk
      obtain ⟨nullable, d, hinside, htake⟩ := take_finish nested cs (m + k)
      have htext := TypeText.generic d hname hinside hts
      rw [List.take_add, hlisted, Option.some.inj h] at htake
      rw [String.toList_ofList] at htext
      refine ⟨{ name := String.ofList (cs.take m), nullable, dimensions := d, params := ts }, ?_⟩
      rw [htake]
      simpa [Spells] using htext
    · split at h
      · cases h
      · exact hplain h
  · exact hplain h

theorem list_of_scan (style : IdentifierStyle) (depth : Nat) :
    ∀ cs k, style.scanList depth cs = some k →
      ∃ list ts, cs.take k = '<' :: (list ++ ['>']) ∧ ListText style depth list ts := by
  induction depth with
  | zero =>
      intro cs k h
      cases h
  | succ depth ih =>
      intro cs k h
      obtain ⟨rest, i, rfl, hi, rfl⟩ := exists_cons_of_scanBrackets h
      obtain ⟨list, ts, hlist, hts⟩ := arguments_of_scan (argument_of_scan (type_of_scan ih true)) hi
      refine ⟨gap (spaces rest) ++ list, ts, ?_, spaces rest, list, rfl, hts⟩
      rw [Nat.add_assoc, Nat.add_comm, List.take_succ_cons, List.take_add, take_spaces, hlist,
        List.append_assoc]

/-- What the scanner reads spells a type. -/
theorem exists_spells {depth : Nat} {nested : Bool} (h : style.scanType depth nested cs = some n) :
    ∃ t, style.Spells depth nested (cs.take n) t :=
  type_of_scan (list_of_scan style depth) nested cs n h

end IdentifierStyle

end Outline
