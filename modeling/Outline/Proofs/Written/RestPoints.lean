import Outline.Proofs.Member.Comments
import Outline.Proofs.Token.Reading
import Outline.Proofs.Written.Between

/-!
# Bodies in parts

Behind some tokens of a body it can be that all machines read nothing and that no annotation and no
comment waits.  What is read from the tokens behind such a point of rest does not depend on those
in front of it: a machine that reads nothing keeps nothing, and what has been read is only added
to.

* `Members.RestsBehind` — a point of rest behind the tokens in front of a body.
* `Extractor.after_eq_of_isIdle` — a machine that reads nothing is as it was at the start.
* `Extractor.line_after` — the line that ends a member is that of its own last token, so that it
  makes no difference which line has been noted before.
* `Members.ofBody_append` — a body is read in parts at each point of rest.
-/

namespace Outline

/-! ## The end of a body -/

namespace Harvest

/-- What is left at the end of a body: nothing waits any more, and the members are counted. -/
def counted (h : Harvest) : Harvest where
  members := h.members
  malformed := h.malformed
  metrics := { h.metrics with
    fields := h.members.fields.length
    methods := h.members.methods.length
    enumMembers := h.members.enumMembers.length }

theorem counted_append (k h : Harvest) : (k ++ h).counted = k.counted ++ h.counted := by
  show counted (append k h) = append (counted k) (counted h)
  simp only [counted, append, Members.append, List.length_append, List.append_nil]
  rfl

end Harvest

namespace Extractor

variable {o : Owner}

/-- The end of the tokens adds nothing if nothing is read. -/
theorem foldl_close_of_isIdle {es : List Extractor} (hes : ∀ e ∈ es, e.isIdle = true)
    (h : Harvest) : es.foldl (close o) h = h := by
  induction es generalizing h with
  | nil => rfl
  | cons e es ih =>
      rw [List.foldl_cons, close,
        deliver_of_not_complete o h (bodyEnd_of_isIdle (hes e List.mem_cons_self)),
        ih fun e he => hes e (List.mem_cons_of_mem _ he)]

/-- Machines that read nothing in front of the end of the tokens have read all that they ever
read. -/
theorem run_of_isIdle {es : List Extractor} {ts : List TokenTree}
    (hidle : ∀ e ∈ (readAll o es {} ts).1, e.isIdle = true) :
    run o es ts = (readAll o es {} ts).2 :=
  foldl_close_of_isIdle hidle _

/-! ## Machines that read nothing -/

/-- The machines for a body without constants. -/
theorem mem_extractors {l : Language} {kind : DeclarationKind} (hkind : kind ≠ .enumLike)
    {e : Extractor} (he : e ∈ Members.extractors l kind) :
    e = field .idle ∨ e = method .idle ∨ e = annotations .idle ∨ e = comment none := by
  have hnone : (kind == .enumLike) = false := beq_eq_false_iff_ne.2 hkind
  rw [Members.extractors, hnone] at he
  split at he <;> simp at he
  · exact he
  · exact Or.inr (Or.inr he)

/-- A machine that reads nothing is as it was at the start: nothing is left over in it of what it
has read. -/
theorem after_eq_of_isIdle {kind : DeclarationKind} (hkind : kind ≠ .enumLike) {e : Extractor}
    (he : e ∈ Members.extractors o.language kind) {front : List TokenTree}
    (hidle : (after o e front).isIdle = true) : after o e front = e := by
  have hname := name_after o e front
  rcases mem_extractors hkind he with rfl | rfl | rfl | rfl
  · cases hm : after o (field .idle) front with
    | field m =>
        rw [hm] at hidle
        exact congrArg field (FieldMachine.eq_idle_of_isIdle hidle)
    | _ => simp [hm, name] at hname
  · obtain ⟨m, hm, hbetween⟩ := method_after o front
    rw [hm] at hidle ⊢
    cases m with
    | head started skip modifiers typeParams =>
        have htidy := hbetween.tidy
        cases started with
        | true => cases hidle
        | false =>
            obtain ⟨rfl, rfl⟩ := htidy
            cases skip with
            | none => rfl
            | some s => cases hidle
    | _ => cases hidle
  · cases hm : after o (annotations .idle) front with
    | annotations m =>
        rw [hm] at hidle
        cases m <;> first | rfl | cases hidle
    | _ => simp [hm, name] at hname
  · exact comment_after o front

end Extractor

/-! ## The line of the last token -/

/-- The line that the field has noted that is being read. -/
def FieldMachine.line? : FieldMachine → Option Nat
  | head .. | failed => none
  | type d _ | name d | afterName d | afterMark d | afterType d | initializer d | complete d =>
    some d.line

/-- The line that the method has noted that is being read. -/
def MethodMachine.line? : MethodMachine → Option Nat
  | head .. | typeParamList .. | failed => none
  | type d _ | name d | afterName d | afterParams d | returnType d _ | afterReturn d | clause d
  | expression d | complete d => some d.line

namespace FieldMachine

/-- The step uses the token up, or the field has noted no other line than the given one. -/
def Notes (line : Nat) (s : Step FieldMachine) : Prop :=
  s.taken = true ∨ ∀ n ∈ s.state.line?, n = line

variable {l : Language} {line : Nat} {d : FieldDraft}

theorem notes_complete (hd : d.line = line) : ∀ n ∈ (complete d).line?, n = line := by
  intro n hn
  exact (Option.some.inj hn).symm.trans hd

theorem notes_failed : ∀ n ∈ failed.line?, n = line := by
  intro n hn
  exact absurd hn (Option.not_mem_none n)

theorem notes_acceptTail (hd : d.line = line) (t : Token) : Notes line (acceptTail d t) := by
  unfold acceptTail
  split
  · exact .inl rfl
  · split
    · exact .inl rfl
    · split
      · exact .inr (notes_complete hd)
      · exact .inr notes_failed

theorem notes_acceptType (hd : d.line = line) (machine : TypeMachine) (t : Token) :
    Notes line (acceptType l d machine t afterType (acceptTail · t)) := by
  rw [acceptType]
  split
  · exact .inr notes_failed
  next found h =>
    split
    · exact .inl rfl
    · exact notes_acceptTail (d := { d with type? := some found }) hd t
  · exact .inr (notes_complete hd)

theorem notes_acceptNameFirst {m : FieldMachine} (hm : ∀ n ∈ m.line?, n = line) (t : Token) :
    Notes line (acceptNameFirst l m t) := by
  cases m with
  | head skip modifiers =>
      rw [acceptNameFirst, acceptHead]
      split
      · exact .inl rfl
      · split
        · exact .inl rfl
        · split
          next h =>
            split at h <;> cases h
            exact .inl rfl
          · split
            · exact .inr fun n hn => absurd hn (Option.not_mem_none n)
            · exact .inr notes_failed
  | afterName d =>
      rw [acceptNameFirst]
      split
      · exact .inl rfl
      · split
        · exact .inl rfl
        · split
          · exact .inl rfl
          · exact notes_acceptTail (hm _ rfl) t
  | afterMark d =>
      rw [acceptNameFirst]
      split
      · exact .inl rfl
      · exact notes_acceptTail (hm _ rfl) t
  | type d machine => exact notes_acceptType (hm _ rfl) machine t
  | afterType d => exact notes_acceptTail (hm _ rfl) t
  | initializer d =>
      rw [acceptNameFirst]
      split
      · exact .inl rfl
      · split
        · exact .inr (notes_complete (hm _ rfl))
        · exact .inl rfl
  | _ => exact .inr hm

theorem line?_mapDraft (m : FieldMachine) (line : Nat) :
    (m.mapDraft fun d => { d with line }).line? = m.line?.map fun _ => line := by
  cases m <;> rfl

/-- Where the name comes first, a field notes the line of each token that it uses. -/
theorem line_accept {o : Owner} (hl : o.language.memberOrder = .nameFirst) {m : FieldMachine}
    (hm : ∀ n ∈ m.line?, n = line) (t : Token) : ∀ n ∈ (m.accept o t).state.line?,
      n = if (m.accept o t).taken then t.span.last.line else line := by
  rw [accept]
  split
  · exact hm
  · rw [hl]
    dsimp only
    split
    next htaken =>
      intro n hn
      rw [Step.map, line?_mapDraft] at hn
      obtain ⟨-, -, rfl⟩ := Option.map_eq_some_iff.1 hn
      exact (if_pos htaken).symm
    next hleft => exact (notes_acceptNameFirst hm t).resolve_left hleft

end FieldMachine

namespace MethodMachine

/-- The step uses the token up, or the method has noted no other line than the given one. -/
def Notes (line : Nat) (s : Step MethodMachine) : Prop :=
  s.taken = true ∨ ∀ n ∈ s.state.line?, n = line

variable {o : Owner} {line : Nat} {d : MethodDraft}

theorem notes_complete (hd : d.line = line) : ∀ n ∈ (complete d).line?, n = line := by
  intro n hn
  exact (Option.some.inj hn).symm.trans hd

theorem notes_failed : ∀ n ∈ failed.line?, n = line := by
  intro n hn
  exact absurd hn (Option.not_mem_none n)

theorem notes_acceptTail (hd : d.line = line) (t : Token) : Notes line (acceptTail d t) := by
  unfold acceptTail
  split
  · exact .inl rfl
  · split
    · exact .inr (notes_complete hd)
    · exact .inr notes_failed

theorem notes_acceptType {l : Language} (hd : d.line = line) (machine : TypeMachine) (t : Token) :
    Notes line (acceptType l d machine t returnType afterReturn (acceptTail · t)) := by
  rw [acceptType]
  split
  · exact .inr notes_failed
  next found h =>
    split
    · exact .inl rfl
    · exact notes_acceptTail (d := { d with returnType? := some found }) hd t
  · exact .inr (notes_complete hd)

theorem notes_acceptName (d : MethodDraft) (text : String) : Notes line (acceptName d text) := by
  unfold acceptName
  split <;> exact .inl rfl

theorem notes_acceptParams (l : Language) (d : MethodDraft) (t : TokenTree) :
    Notes line (acceptParams l d t) := by
  unfold acceptParams
  split <;> exact .inl rfl

theorem notes_acceptNameFirst {m : MethodMachine} (hm : ∀ n ∈ m.line?, n = line)
    (t : TokenTree) : Notes line (acceptNameFirst o m t) := by
  cases m with
  | head started skip modifiers typeParams =>
      rw [acceptNameFirst_head]
      refine acceptHead_of_parts (fun _ _ => .inl rfl) (fun _ _ _ => .inl rfl) fun skip' _ _ => ?_
      split
      · exact notes_acceptName _ _
      · split
        · exact .inl rfl
        · cases started with
          | true => exact .inr notes_failed
          | false => exact .inr fun n hn => absurd hn (Option.not_mem_none n)
  | afterName d =>
      rw [acceptNameFirst]
      split
      · exact .inl rfl
      · split
        · exact notes_acceptParams _ _ _
        · exact .inr notes_failed
  | afterParams d =>
      rw [acceptNameFirst]
      split
      · exact .inl rfl
      · exact notes_acceptTail (hm _ rfl) t.value
  | returnType d machine => exact notes_acceptType (hm _ rfl) machine t.value
  | afterReturn d => exact notes_acceptTail (hm _ rfl) t.value
  | _ => exact .inr hm

theorem line?_mapDraft (m : MethodMachine) (line : Nat) :
    (m.mapDraft fun d => { d with line }).line? = m.line?.map fun _ => line := by
  cases m <;> rfl

/-- Where the name comes first, a method notes the line of each token that it uses. -/
theorem line_accept (hl : o.language.memberOrder = .nameFirst) {m : MethodMachine}
    (hm : ∀ n ∈ m.line?, n = line) (t : TokenTree) : ∀ n ∈ (m.accept o t).state.line?,
      n = if (m.accept o t).taken then t.span.last.line else line := by
  rw [accept_eq, acceptInOrder_nameFirst hl]
  split
  · exact hm
  · split
    next htaken =>
      intro n hn
      rw [Step.map, stamp, line?_mapDraft] at hn
      obtain ⟨-, -, rfl⟩ := Option.map_eq_some_iff.1 hn
      exact (if_pos htaken).symm
    next hleft => exact (notes_acceptNameFirst hm t).resolve_left hleft

end MethodMachine

namespace Extractor

variable {o : Owner}

/-- The line that the member has noted that is being read. -/
def line? : Extractor → Option Nat
  | field m => m.line?
  | method m => m.line?
  | _ => none

/-- The line at which the last token ends that a machine uses, or the given one if it uses none.
Members that end or are given up change nothing about it. -/
def lastUsed (o : Owner) : Extractor → Nat → List TokenTree → Nat
  | _, line, [] => line
  | e, line, t :: ts =>
    let r := respond o t e
    lastUsed o r.machine (if r.taken then t.span.last.line else line) ts

theorem line_accept (hl : o.language.memberOrder = .nameFirst) {e : Extractor} {line : Nat}
    (he : ∀ n ∈ e.line?, n = line) (t : TokenTree) : ∀ n ∈ (e.accept o t).state.line?,
      n = if (e.accept o t).taken then t.span.last.line else line := by
  cases e with
  | field m => exact FieldMachine.line_accept hl he t.value
  | method m => exact MethodMachine.line_accept hl he t
  | comment found? =>
      rw [accept]
      split <;> exact fun n hn => absurd hn (Option.not_mem_none n)
  | _ => exact fun n hn => absurd hn (Option.not_mem_none n)

/-- No line is noted at the start. -/
theorem line?_of_mem {kind : DeclarationKind} (hkind : kind ≠ .enumLike) {e : Extractor}
    (he : e ∈ Members.extractors o.language kind) : e.line? = none := by
  rcases mem_extractors hkind he with rfl | rfl | rfl | rfl <;> rfl

theorem line?_reset (e : Extractor) : e.reset.line? = none := by
  cases e <;> rfl

theorem line_respond (hl : o.language.memberOrder = .nameFirst) {e : Extractor} {line : Nat}
    (he : ∀ n ∈ e.line?, n = line) (t : TokenTree) : ∀ n ∈ (respond o t e).machine.line?,
      n = if (respond o t e).taken then t.span.last.line else line := by
  refine Tracked.offerUpTo_induction (o := o) (p := 0) (t := t)
    (P := fun w r => (∀ n ∈ w.machine.line?, n = line) →
      ∀ n ∈ r.1.machine.line?, n = if r.2.2 then t.span.last.line else line) ?_ ?_ ?_ ?_ ?_ 1
    ⟨e, []⟩ he
  · exact fun w _ _ hw => line_accept hl hw t
  · exact fun w _ => by simp [line?_reset]
  · exact fun w _ _ => by simp [line?_reset]
  · exact fun w r hr _ => hr (by simp [line?_reset])
  · exact fun w r _ hr _ => hr (by simp [line?_reset])

/-- A line that is noted is always that of the last token used, whatever the line was that had been
noted before the first one. -/
theorem line_after (hl : o.language.memberOrder = .nameFirst) {e : Extractor} {line : Nat}
    (he : ∀ n ∈ e.line?, n = line) (ts : List TokenTree) :
    ∀ n ∈ (after o e ts).line?, n = lastUsed o e line ts := by
  induction ts generalizing e line with
  | nil => exact he
  | cons t ts ih => exact ih (line_respond hl he t)

end Extractor

/-! ## Bodies -/

namespace Members

open Extractor (readAll run)

/-- Behind the tokens in front of a body all machines read nothing, and nothing waits. -/
structure RestsBehind (o : Owner) (kind : DeclarationKind) (front : List TokenTree) : Prop where
  /-- All machines read nothing. -/
  idle : ∀ e ∈ (readAll o (extractors o.language kind) {} front).1, e.isIdle = true
  /-- No annotation and no comment waits. -/
  clear : (readAll o (extractors o.language kind) {} front).2.Clear

instance (o : Owner) (kind : DeclarationKind) (front : List TokenTree) :
    Decidable (RestsBehind o kind front) :=
  decidable_of_iff ((∀ e ∈ (readAll o (extractors o.language kind) {} front).1, e.isIdle = true) ∧
    (readAll o (extractors o.language kind) {} front).2.Clear)
    ⟨fun h => ⟨h.1, h.2⟩, fun h => ⟨h.1, h.2⟩⟩

variable {o : Owner} {kind : DeclarationKind} {front : List TokenTree}

theorem ofBody_eq (o : Owner) (kind : DeclarationKind) (body : List TokenTree) :
    ofBody o kind body = (run o (extractors o.language kind) body).counted := rfl

/-- At a point of rest each machine is as it was at the start. -/
theorem RestsBehind.after_eq (h : RestsBehind o kind front) (hkind : kind ≠ .enumLike)
    {e : Extractor} (he : e ∈ extractors o.language kind) : Extractor.after o e front = e := by
  have hidle := h.idle
  rw [Extractor.readAll_after] at hidle
  exact Extractor.after_eq_of_isIdle hkind he (hidle _ (List.mem_map_of_mem he))

theorem RestsBehind.machines (h : RestsBehind o kind front) (hkind : kind ≠ .enumLike) :
    (readAll o (extractors o.language kind) {} front).1 = extractors o.language kind := by
  rw [Extractor.readAll_after]
  calc (extractors o.language kind).map (Extractor.after o · front)
      = (extractors o.language kind).map id := List.map_congr_left fun _ => h.after_eq hkind
    _ = extractors o.language kind := List.map_id _

/-- A body without constants is read in parts at each point of rest: the fields, the methods, the
malformed types and the counts of both parts, one after the other.  Behind it every machine reads
on as at the start, and where the name comes first, a line that is noted is that of the last token
used behind the point of rest, whatever the line was that had been noted in front of it. -/
theorem ofBody_append (hkind : kind ≠ .enumLike) (h : RestsBehind o kind front)
    (rest : List TokenTree) :
    ofBody o kind (front ++ rest) = ofBody o kind front ++ ofBody o kind rest ∧
      ∀ e ∈ extractors o.language kind,
        Extractor.after o e (front ++ rest) = Extractor.after o e rest ∧
        (o.language.memberOrder = .nameFirst → ∀ line,
          ∀ n ∈ (Extractor.after o e (front ++ rest)).line?,
            n = Extractor.lastUsed o e line rest) := by
  refine ⟨?_, fun e he => ?_⟩
  · rw [ofBody_eq, ofBody_eq, ofBody_eq, Extractor.run_append (h.machines hkind) h.clear,
      Harvest.counted_append, Extractor.run_of_isIdle h.idle]
  · have hafter : Extractor.after o e (front ++ rest) = Extractor.after o e rest := by
      rw [Extractor.after_append, h.after_eq hkind he]
    refine ⟨hafter, fun hl line => ?_⟩
    rw [hafter]
    refine Extractor.line_after hl ?_ rest
    simp [Extractor.line?_of_mem hkind he]

/-- A body with an optional field and a method in front of fields that end with their lines.  At its
end a field is being read, with the line of the last token. -/
theorem ofBody_append_lines : ∃ front rest : List TokenTree,
    (∃ document, TokenTree.read ⟨.typescript, 3⟩
        "readonly x?: number; async f(): void {}\n y\n z: string" = .ok document ∧
      document.children = front ++ rest) ∧
      (DeclarationKind.classLike ≠ .enumLike ∧
        RestsBehind ⟨.typescript, ["A"]⟩ .classLike front) ∧
      (ofBody ⟨.typescript, ["A"]⟩ .classLike rest).members.fields.length = 2 ∧
      ofBody ⟨.typescript, ["A"]⟩ .classLike (front ++ rest) =
        ofBody ⟨.typescript, ["A"]⟩ .classLike front ++
          ofBody ⟨.typescript, ["A"]⟩ .classLike rest ∧
      (Extractor.after ⟨.typescript, ["A"]⟩ (.field .idle) (front ++ rest)).line? = some 2 ∧
      ∀ line, Extractor.lastUsed ⟨.typescript, ["A"]⟩ (.field .idle) line rest = 2 := by
  obtain ⟨document, hread, hcheck⟩ := TokenTree.exists_read_of_any ⟨.typescript, 3⟩
    "readonly x?: number; async f(): void {}\n y\n z: string"
    (fun document =>
      decide (RestsBehind ⟨.typescript, ["A"]⟩ .classLike (document.children.take 12)) &&
        decide ((ofBody ⟨.typescript, ["A"]⟩ .classLike
          (document.children.drop 12)).members.fields.length = 2) &&
        decide ((Extractor.after ⟨.typescript, ["A"]⟩ (.field .idle)
          (document.children.take 12 ++ document.children.drop 12)).line? = some 2))
    (by decide +kernel)
  rw [Bool.and_eq_true_iff, Bool.and_eq_true_iff] at hcheck
  obtain ⟨⟨hrest, hfields⟩, hline⟩ := hcheck
  have hrest := of_decide_eq_true hrest
  have hline := of_decide_eq_true hline
  obtain ⟨hparts, hreads⟩ := ofBody_append (by decide) hrest (document.children.drop 12)
  refine ⟨_, _, ⟨document, hread, (List.take_append_drop 12 _).symm⟩, ⟨by decide, hrest⟩,
    of_decide_eq_true hfields, hparts, hline, fun line => ?_⟩
  exact ((hreads (.field .idle) List.mem_cons_self).2 rfl line 2 hline).symm

end Members

end Outline
