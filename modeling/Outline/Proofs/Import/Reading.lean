import Outline.Proofs.Import.Grammar
import Outline.Proofs.Member.Retry
import Outline.Proofs.Written.Feeding

/-!
# Reading imports

The machine that reads imports, as a function that answers each token with a state and an import.

* `ImportMachine.offer`, `ImportMachine.imports` — what one token and what a run of tokens makes of
  a machine.
* `Import.ofTokens_eq` — the imports of a run of tokens are those of the function.
* `ImportMachine.imports_code` — comments change nothing.
* `ImportMachine.imports_ending` — a statement that may go on has been read.
* `ImportMachine.Begins` — the tokens of a statement that have been read in a state.
* `ImportMachine.exists_statement_of_mem` — each import from a namespace is that of a statement that
  is written among the tokens.
-/

namespace Outline

namespace ImportMachine

variable {l : Language} {m m' : ImportMachine} {t : TokenTree} {d : ImportDraft}

theorem accept_namespace (hl : l ≠ .typescript) (ht : t.kind ≠ .comment) :
    m.accept l t = acceptNamespace l m t.value := by
  rw [accept.eq_def, if_neg (by simpa using ht)]
  cases l <;> first | rfl | exact absurd rfl hl

theorem accept_module (ht : t.kind ≠ .comment) : m.accept .typescript t = acceptModule m t := by
  rw [accept.eq_def, if_neg (by simpa using ht)]

/-! ## Offers -/

/-- What a token makes of a machine, and the import that ends.  A machine that gives up, or that
ends an import without the token, is offered it again. -/
def offer (l : Language) (m : ImportMachine) (t : TokenTree) : ImportMachine × Option ImportDraft :=
  match (m.accept l t).state, (m.accept l t).taken with
  | complete d, true => (idle, some d)
  | complete d, false => ((idle.accept l t).state, some d)
  | failed, _ => ((idle.accept l t).state, none)
  | m', _ => (m', none)

/-- Whether a machine waits for more tokens. -/
def isWaiting : ImportMachine → Bool
  | complete _ | failed => false
  | _ => true

theorem isWaiting_accept_idle (l : Language) (t : TokenTree) :
    (idle.accept l t).state.isWaiting = true := by
  unfold accept
  split
  · rfl
  · cases l <;> dsimp only [acceptNamespace, acceptModule] <;> split <;> rfl

theorem offer_of_waiting (h : (m.accept l t).state.isWaiting = true) :
    m.offer l t = ((m.accept l t).state, none) := by
  unfold offer
  generalize (m.accept l t).state = state at h
  cases state <;> first | rfl | cases h

theorem offer_idle (l : Language) (t : TokenTree) :
    idle.offer l t = ((idle.accept l t).state, none) :=
  offer_of_waiting (isWaiting_accept_idle l t)

theorem offer_of_taken_complete (h : (m.accept l t).state = complete d)
    (ht : (m.accept l t).taken = true) : m.offer l t = (idle, some d) := by
  unfold offer
  rw [h, ht]

theorem offer_of_left_complete (h : (m.accept l t).state = complete d)
    (ht : (m.accept l t).taken = false) : m.offer l t = ((idle.offer l t).1, some d) := by
  rw [offer_idle]
  unfold offer
  rw [h, ht]

theorem offer_of_failed (h : (m.accept l t).state = failed) : m.offer l t = idle.offer l t := by
  rw [offer_idle]
  unfold offer
  rw [h]

/-- A machine that gives up leaves the token to others. -/
theorem taken_of_failed (h : (m.accept l t).state = failed) : (m.accept l t).taken = false := by
  revert h
  unfold accept acceptNamespace acceptModule
  repeat' split
  all_goals first | exact fun _ => rfl | nofun

end ImportMachine

open ImportMachine (isWaiting_accept_idle)

namespace Extractor

variable {l : Language} {m : ImportMachine}

theorem isFailed_of_isWaiting (h : m.isWaiting = true) : (imports m).isFailed = false := by
  cases m <;> first | rfl | cases h

theorem isComplete_of_isWaiting (h : m.isWaiting = true) : (imports m).isComplete = false := by
  cases m <;> first | rfl | cases h

/-- What a token makes of the machine that reads imports. -/
theorem respond_imports (l : Language) (m : ImportMachine) (t : TokenTree) :
    ∃ taken, respond ⟨l, []⟩ t (imports m) = ⟨imports (m.offer l t).1,
      (m.offer l t).2.toList.map fun d => imports (.complete d), taken⟩ := by
  have hidle := isWaiting_accept_idle l t
  have hagain : respond ⟨l, []⟩ t (imports .idle) = _ :=
    respond_of_going rfl (isFailed_of_isWaiting hidle) (isComplete_of_isWaiting hidle)
  have haccept : (imports m).accept ⟨l, []⟩ t = (m.accept l t).map imports := rfl
  by_cases hwaiting : (m.accept l t).state.isWaiting = true
  · rw [ImportMachine.offer_of_waiting hwaiting]
    exact ⟨_, respond_of_going rfl (isFailed_of_isWaiting hwaiting)
      (isComplete_of_isWaiting hwaiting)⟩
  · cases hstate : (m.accept l t).state with
    | complete d =>
        have hcomplete : ((m.accept l t).map imports).state = imports (.complete d) :=
          congrArg imports hstate
        cases htaken : (m.accept l t).taken with
        | true =>
            rw [ImportMachine.offer_of_taken_complete hstate htaken]
            refine ⟨true, ?_⟩
            rw [respond_of_taken_complete haccept (by rw [hcomplete]; rfl) (by rw [hcomplete]; rfl)
              htaken, hcomplete]
            rfl
        | false =>
            rw [ImportMachine.offer_of_left_complete hstate htaken, ImportMachine.offer_idle]
            rw [respond_of_left_complete haccept (by rw [hcomplete]; rfl) (by rw [hcomplete]; rfl)
              htaken (by rw [hcomplete]; rfl), hcomplete]
            · exact ⟨_, congrArg (fun r : Response =>
                ({ r with ended := imports (.complete d) :: r.ended } : Response)) hagain⟩
            · rw [hcomplete]
              exact isComplete_of_isWaiting hidle
    | failed =>
        have hfailed : ((m.accept l t).map imports).state = imports .failed :=
          congrArg imports hstate
        rw [ImportMachine.offer_of_failed hstate, ImportMachine.offer_idle,
          respond_of_left_failed haccept (by rw [hfailed]; rfl)
            (ImportMachine.taken_of_failed hstate) ?_ (by rw [hfailed]; rfl) ?_, hfailed]
        · exact ⟨_, hagain⟩
        · cases m <;> first | rfl | simp [hstate, ImportMachine.isWaiting] at hidle
        · rw [hfailed]
          exact isComplete_of_isWaiting hidle
    | _ => exact absurd (by rw [hstate]; rfl) hwaiting

end Extractor

namespace ImportMachine

variable {l : Language} {m m' : ImportMachine} {t : TokenTree} {d : ImportDraft}

/-! ## Runs -/

/-- The import that ends. -/
def ended (l : Language) (d? : Option ImportDraft) : List Import := (d?.bind (·.import? l)).toList

/-- The imports that a machine reads from a run of tokens. -/
def imports (l : Language) : ImportMachine → List TokenTree → List Import
  | m, [] =>
    match m.bodyEnd with
    | complete d => ended l (some d)
    | _ => []
  | m, t :: ts => ended l (m.offer l t).2 ++ imports l (m.offer l t).1 ts

end ImportMachine

/-- What the machine delivers at the end. -/
theorem Extractor.imports_close (l : Language) (h : Harvest) (m : ImportMachine) :
    (close ⟨l, []⟩ h (.imports m)).members.imports = h.members.imports ++ m.imports l [] := by
  change ((Extractor.imports m.bodyEnd).deliver ⟨l, []⟩ h).members.imports = _
  unfold ImportMachine.imports
  cases m.bodyEnd <;> first | exact (List.append_nil _).symm | rfl

theorem Extractor.imports_readAll (l : Language) (m : ImportMachine) (h : Harvest)
    (ts : List TokenTree) :
    ((readAll ⟨l, []⟩ [.imports m] h ts).1.foldl (close ⟨l, []⟩)
      (readAll ⟨l, []⟩ [.imports m] h ts).2).members.imports =
        h.members.imports ++ m.imports l ts := by
  induction ts generalizing m h with
  | nil => exact imports_close l h m
  | cons t ts ih =>
      have hcons : readAll ⟨l, []⟩ [.imports m] h (t :: ts) =
          readAll ⟨l, []⟩ (read ⟨l, []⟩ [.imports m] h t).1 (read ⟨l, []⟩ [.imports m] h t).2 ts :=
        rfl
      obtain ⟨taken, hrespond⟩ := respond_imports l m t
      obtain ⟨hmachines, hharvest⟩ := read_respond ⟨l, []⟩ t [.imports m] h
      rw [List.map_singleton, hrespond] at hmachines
      rw [hcons, hmachines, ih, ImportMachine.imports, ← List.append_assoc]
      congr 1
      have hbare : ∀ h : Harvest, h.members.imports = h.bare.members.imports := fun _ => rfl
      rw [hbare, hharvest, hbare h]
      simp only [List.flatMap_cons, List.flatMap_nil, List.append_nil, hrespond]
      cases (m.offer l t).2 with
      | none => split <;> exact (List.append_nil _).symm
      | some d => split <;> rfl

/-- The imports of a run of tokens. -/
theorem Import.ofTokens_eq (l : Language) (ts : List TokenTree) :
    Import.ofTokens l ts = ImportMachine.imports l .idle ts :=
  Extractor.imports_readAll l .idle {} ts

namespace ImportMachine

variable {l : Language} {m m' : ImportMachine} {t : TokenTree} {d : ImportDraft}
  {ts : List TokenTree}

/-- A token with which the machine goes on. -/
theorem imports_cons (h : m.accept l t = .take m') (hwaiting : m'.isWaiting = true) :
    imports l m (t :: ts) = imports l m' ts := by
  rw [imports, offer_of_waiting (by rw [h]; exact hwaiting), h]
  rfl

/-- A token that ends an import. -/
theorem imports_cons_of_complete (h : m.accept l t = .take (complete d)) :
    imports l m (t :: ts) = ended l (some d) ++ imports l idle ts := by
  rw [imports, offer_of_taken_complete (d := d) (by rw [h]; rfl) (by rw [h]; rfl)]

/-- A token that the machine leaves as it is. -/
theorem imports_cons_of_left (h : m.accept l t = .leave m) (hwaiting : m.isWaiting = true) :
    imports l m (t :: ts) = imports l m ts := by
  rw [imports, offer_of_waiting (by rw [h]; exact hwaiting), h]
  rfl

/-- A comment in front of other tokens. -/
theorem imports_comment (ht : t.kind = .comment) (hwaiting : m.isWaiting = true) :
    imports l m (t :: ts) = imports l m ts := by
  refine imports_cons_of_left ?_ hwaiting
  rw [accept.eq_def, ht]
  rfl

/-- A token that starts no import. -/
theorem imports_idle_of_not_keyword (h : t.value.isKeyword (namespaceKeyword l) = false) :
    imports l idle (t :: ts) = imports l idle ts := by
  refine imports_cons_of_left ?_ rfl
  unfold accept
  split
  · rfl
  · cases l <;> dsimp only [acceptNamespace, acceptModule] <;>
      exact if_neg (Bool.eq_false_iff.1 h)

/-- A machine waits for the next token after every one. -/
theorem isWaiting_offer (l : Language) (m : ImportMachine) (t : TokenTree) :
    (m.offer l t).1.isWaiting = true := by
  by_cases hwaiting : (m.accept l t).state.isWaiting = true
  · rw [offer_of_waiting hwaiting]
    exact hwaiting
  · cases hstate : (m.accept l t).state with
    | complete d =>
        cases htaken : (m.accept l t).taken with
        | true =>
            rw [offer_of_taken_complete hstate htaken]
            rfl
        | false =>
            rw [offer_of_left_complete hstate htaken, offer_idle]
            exact isWaiting_accept_idle l t
    | failed =>
        rw [offer_of_failed hstate, offer_idle]
        exact isWaiting_accept_idle l t
    | _ => exact absurd (by rw [hstate]; rfl) hwaiting

/-- Comments change nothing. -/
theorem imports_code (hwaiting : m.isWaiting = true) (ts : List TokenTree) :
    imports l m (TokenTree.code ts) = imports l m ts := by
  induction ts generalizing m with
  | nil => rfl
  | cons t ts ih =>
      by_cases ht : t.kind = .comment
      · rw [TokenTree.code_cons_of_comment ht, ih hwaiting, imports_comment ht hwaiting]
      · rw [TokenTree.code_cons_of_ne ht, imports, imports, ih (isWaiting_offer l m t)]

/-- A statement that may go on has been read, whatever follows. -/
theorem imports_ending (l : Language) (d : ImportDraft) (ts : List TokenTree)
    (hl : l = .typescript) :
    imports l (ending d) ts = ended l (some d) ++ imports l idle ts := by
  induction ts with
  | nil => exact (List.append_nil _).symm
  | cons t ts ih =>
      by_cases ht : t.kind = .comment
      · rw [imports_comment ht rfl, ih, imports_comment ht rfl]
      · have haccept : (ending d).accept l t = ⟨complete d, t.value.isSeparator ";", []⟩ := by
          rw [hl, accept_module ht]
          rfl
        cases hstop : t.value.isSeparator ";" with
        | true =>
            rw [imports_cons_of_complete (by rw [haccept, hstop]; rfl),
              imports_idle_of_not_keyword]
            exact Token.isKeyword_eq_false (by rw [Token.kind_of_isSeparator hstop]; decide) _
        | false =>
            rw [imports, offer_of_left_complete (d := d) (by rw [haccept])
              (by rw [haccept, hstop]), imports, offer_idle]
            rfl

end ImportMachine

/-! ## The statements of imports -/

section

variable {l : Language} {t : TokenTree}

namespace NamespaceImport

/-- The tokens in front of the semicolon. -/
def front (s : NamespaceImport l) : List TokenTree :=
  s.keyword :: s.static?.toList ++ s.alias?.elim [] (fun a => [a.1, a.2]) ++
    s.target :: s.wildcard?.elim [] (fun w => [w.1, w.2])

/-- What is known of the import in front of the semicolon. -/
def draft (s : NamespaceImport l) : ImportDraft where
  isStatic := s.static?.isSome
  target? := some s.target.text
  alias? := s.alias?.map (·.1.text)
  hasWildcard := s.wildcard?.isSome

/-- The import, as far as it is read from the text of the target. -/
theorem import?_draft (s : NamespaceImport l) :
    let split := ImportDraft.splitTarget s.namesMember s.target.text
    s.draft.import? l = some {
      path := split.1, names := split.2
      alias? := s.alias?.map (·.1.text), isStatic := s.static?.isSome } := by
  simp [draft, ImportDraft.import?, namesMember]

end NamespaceImport

namespace ImportMachine

variable {m : ImportMachine} {ts read : List TokenTree}

/-- The tokens of a statement that have been read in a state. -/
inductive Begins (l : Language) : ImportMachine → List TokenTree → Prop where
  /-- The keywords. -/
  | keyword {word : TokenTree} {static? : Option TokenTree}
      (introduces : word.value.isKeyword (namespaceKeyword l) = true)
      (isStatic : ∀ t ∈ static?, t.value.isKeyword "static" = true) :
      Begins l (.keyword { isStatic := static?.isSome }) (word :: static?.toList)
  /-- Everything in front of the semicolon. -/
  | target (s : NamespaceImport l) : Begins l (.afterTarget s.draft) s.front
  /-- The equals sign behind a name. -/
  | equals (s : NamespaceImport l) {equals : TokenTree} (first : s.alias? = none)
      (plain : s.wildcard? = none) (hl : l = .csharp)
      (isEquals : equals.value.isOperator "=" = true) :
      Begins l (.aliasTarget { s.draft with alias? := s.draft.target?, target? := none })
        (s.front ++ [equals])
  /-- The dot behind a name. -/
  | wildcard (s : NamespaceImport l) {dot : TokenTree} (plain : s.wildcard? = none)
      (hl : l = .java) (isDot : dot.value.isOperator "." = true) :
      Begins l (.wildcard s.draft) (s.front ++ [dot])

theorem Begins.of_front {s : NamespaceImport l} (hm : m = .afterTarget s.draft)
    (hts : s.front = ts) : Begins l m ts := by
  subst hm hts
  exact .target s

/-- The ways in which a statement can go on. -/
inductive Continues (l : Language) (ts : List TokenTree) : Step ImportMachine → Prop where
  /-- The statement goes on. -/
  | goes {m : ImportMachine} (begins : Begins l m ts) : Continues l ts (.take m)
  /-- The statement ends. -/
  | ends (s : NamespaceImport l) (written : s.tokens = ts) :
      Continues l ts (.take (complete s.draft))
  /-- There is no statement. -/
  | fails : Continues l ts (.leave failed)

/-- What a token makes of a statement that has begun. -/
theorem Begins.step (h : Begins l m ts) (t : TokenTree) :
    Continues l (ts ++ [t]) (acceptNamespace l m t.value) := by
  cases h with
  | @keyword word static? introduces isStatic =>
      rw [acceptNamespace]
      split
      case isTrue hstatic =>
        rw [Bool.and_eq_true] at hstatic
        cases static? with
        | none =>
            exact .goes (@Begins.keyword l word (some t) introduces (by simpa using hstatic.1))
        | some t => simp at hstatic
      split
      case isTrue hname =>
        refine .goes (.of_front (s := {
          keyword := word, static?, target := t, stop := .bare .separator ";"
          introduces, isStatic, isTarget := beq_iff_eq.1 hname, ends := rfl
          isAlias := by simp, isWildcard := by simp }) rfl ?_)
        simp [NamespaceImport.front]
      exact .fails
  | target s =>
      rw [acceptNamespace]
      split
      case isTrue hstop =>
        exact .ends { s with stop := t, ends := hstop } rfl
      split
      case isTrue hequals =>
        simp only [Bool.and_eq_true, beq_iff_eq, Option.isNone_iff_eq_none] at hequals
        obtain ⟨⟨rfl, hequals⟩, hfirst⟩ := hequals
        have hplain : s.wildcard? = none :=
          Option.eq_none_iff_forall_not_mem.2 fun w hw => nomatch (s.isWildcard w hw).1
        exact .goes (.equals s (Option.map_eq_none_iff.1 hfirst) hplain rfl hequals)
      split
      case isTrue hdot =>
        simp only [Bool.and_eq_true, beq_iff_eq, Bool.not_eq_true'] at hdot
        exact .goes (.wildcard s (by simpa [NamespaceImport.draft] using hdot.2) hdot.1.1 hdot.1.2)
      exact .fails
  | @equals s equals first plain hl isEquals =>
      rw [acceptNamespace]
      split
      case isTrue hname =>
        refine .goes (.of_front (s := { s with
          alias? := some (s.target, equals), target := t, isTarget := beq_iff_eq.1 hname
          isAlias := by rintro a ⟨⟩; exact ⟨hl, s.isTarget, isEquals⟩ }) rfl ?_)
        simp [NamespaceImport.front, first, plain]
      exact .fails
  | @wildcard s dot plain hl isDot =>
      rw [acceptNamespace]
      split
      case isTrue hstar =>
        refine .goes (.of_front (s := { s with
          wildcard? := some (dot, t)
          isWildcard := by rintro w ⟨⟩; exact ⟨hl, isDot, hstar⟩ }) rfl ?_)
        simp [NamespaceImport.front, plain]
      exact .fails

theorem Begins.isWaiting (h : Begins l m ts) : m.isWaiting = true := by
  cases h <;> rfl

/-! ## Runs -/

/-- What is known of the tokens that have been read in a state. -/
def Follows (l : Language) (m : ImportMachine) (read : List TokenTree) : Prop :=
  m = idle ∨ ∃ ts, ts <:+ read ∧ Begins l m ts

theorem follows_idle_offer (hl : l ≠ .typescript) (ht : t.kind ≠ .comment)
    (read : List TokenTree) : Follows l (idle.offer l t).1 (read ++ [t]) := by
  rw [offer_idle, accept_namespace hl ht, acceptNamespace]
  split
  case isTrue hword =>
    exact .inr ⟨[t], List.suffix_append _ _, @Begins.keyword l t none hword (by simp)⟩
  exact .inl rfl

/-- A token keeps what is known, and an import that ends is that of a statement which ends with the
token. -/
theorem Follows.offer (hl : l ≠ .typescript) (ht : t.kind ≠ .comment) (h : Follows l m read) :
    Follows l (m.offer l t).1 (read ++ [t]) ∧
      ∀ d ∈ (m.offer l t).2, ∃ s : NamespaceImport l, s.tokens <:+ read ++ [t] ∧ s.draft = d := by
  rcases h with rfl | ⟨ts, hsuffix, hbegins⟩
  · refine ⟨follows_idle_offer hl ht read, ?_⟩
    rw [offer_idle]
    simp
  · have hsuffix : ts ++ [t] <:+ read ++ [t] := List.suffix_append_self_iff.2 hsuffix
    have hstep := hbegins.step t
    rw [← accept_namespace hl ht] at hstep
    generalize haccept : m.accept l t = step at hstep
    cases hstep with
    | @goes m' begins =>
        rw [offer_of_waiting (by rw [haccept]; exact begins.isWaiting), haccept]
        exact ⟨.inr ⟨_, hsuffix, begins⟩, by simp⟩
    | ends s written =>
        rw [offer_of_taken_complete (d := s.draft) (by rw [haccept]; rfl) (by rw [haccept]; rfl)]
        refine ⟨.inl rfl, ?_⟩
        rintro d ⟨⟩
        exact ⟨s, written ▸ hsuffix, rfl⟩
    | fails =>
        rw [offer_of_failed (by rw [haccept]; rfl)]
        refine ⟨follows_idle_offer hl ht read, ?_⟩
        rw [offer_idle]
        simp

/-- Each import of a run is that of a statement that is written in it. -/
theorem Follows.exists_statement (hl : l ≠ .typescript) (h : Follows l m read)
    (hts : ∀ t ∈ ts, t.kind ≠ .comment) {i : Import} (hi : i ∈ imports l m ts) :
    ∃ s : NamespaceImport l, s.tokens <:+: read ++ ts ∧ i ∈ s.draft.import? l := by
  induction ts generalizing m read with
  | nil =>
      rcases h with rfl | ⟨ts, -, hbegins⟩
      · exact absurd hi List.not_mem_nil
      · cases hbegins <;> exact absurd hi List.not_mem_nil
  | cons t ts ih =>
      obtain ⟨ht, hts⟩ := List.forall_mem_cons.1 hts
      obtain ⟨hfollows, hended⟩ := h.offer hl ht
      rw [imports, List.mem_append] at hi
      rcases hi with hi | hi
      · obtain ⟨d, hd, hi⟩ := Option.bind_eq_some_iff.1 (Option.mem_toList.1 hi)
        obtain ⟨s, ⟨front, hs⟩, rfl⟩ := hended d hd
        exact ⟨s, ⟨front, ts, by rw [hs, List.append_assoc, List.singleton_append]⟩, hi⟩
      · obtain ⟨s, hs, hi⟩ := ih hfollows hts hi
        exact ⟨s, by rwa [List.append_assoc, List.singleton_append] at hs, hi⟩

/-- Each import from a namespace is that of a statement that is written among the tokens. -/
theorem exists_statement_of_mem (hl : l ≠ .typescript) {i : Import}
    (hi : i ∈ Import.ofTokens l ts) :
    ∃ s : NamespaceImport l, s.tokens <:+: TokenTree.code ts ∧ i ∈ s.draft.import? l := by
  rw [Import.ofTokens_eq, ← imports_code rfl] at hi
  have hidle : Follows l idle [] := .inl rfl
  refine hidle.exists_statement hl (fun t ht => ?_) hi
  simpa [TokenTree.code, TokenTree.isCode] using (List.mem_filter.1 ht).2

end ImportMachine

end

end Outline
