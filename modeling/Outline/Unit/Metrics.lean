/-!
# Counts of work
-/

namespace Outline

/-- The amount of work that went into the reading of one or more files. -/
structure Metrics where
  /-- Files read. -/
  files : Nat := 0
  /-- Tokens, the documents apart. -/
  tokens : Nat := 0
  /-- Declarations with members. -/
  blocks : Nat := 0
  /-- Fields. -/
  fields : Nat := 0
  /-- Methods. -/
  methods : Nat := 0
  /-- Constants of enumerations. -/
  enumMembers : Nat := 0
  /-- Offers of a token to a machine. -/
  offers : Nat := 0
  /-- Items given up part way. -/
  abandoned : Nat := 0
  deriving DecidableEq, Repr, Inhabited

namespace Metrics

/-- The counts of two amounts of work together. -/
def add (a b : Metrics) : Metrics where
  files := a.files + b.files
  tokens := a.tokens + b.tokens
  blocks := a.blocks + b.blocks
  fields := a.fields + b.fields
  methods := a.methods + b.methods
  enumMembers := a.enumMembers + b.enumMembers
  offers := a.offers + b.offers
  abandoned := a.abandoned + b.abandoned

instance : Add Metrics := ⟨add⟩

/-- The counts of several amounts of work together. -/
def total (ms : List Metrics) : Metrics := ms.foldl (· + ·) {}

/-- The counts as a table; items given up are left out if there are none. -/
def text (m : Metrics) : String :=
  "Files:        " ++ toString m.files ++ "\n" ++
  "Tokens:       " ++ toString m.tokens ++ "\n" ++
  "Blocks:       " ++ toString m.blocks ++ "\n" ++
  "Members:\n" ++
  "  Fields:     " ++ toString m.fields ++ "\n" ++
  "  Methods:    " ++ toString m.methods ++ "\n" ++
  "  Enum items: " ++ toString m.enumMembers ++ "\n" ++
  "Extraction:\n" ++
  "  Offers:     " ++ toString m.offers ++ "\n" ++
  (if 0 < m.abandoned then "  Abandoned:  " ++ toString m.abandoned ++ "\n" else "")

end Metrics

end Outline
