import QueryPlan.Node.Equality
import QueryPlan.Proofs.Annotations.Hints
import QueryPlan.Proofs.Printer.Expressions
import QueryPlan.Proofs.Session.Reached

/-!
# Printed plans are unambiguous

Table sources are read back from their keywords, which no plain name is.  Two
plans of one text have the same tokens, are read alike and so have one sketch, and
a sketch shows all of a plan but its handles, annotations and types.
-/

namespace QueryPlan

open Token Filter

/-! ## Table sources -/

/-- What may follow a table source. -/
def EndsSource (rest : List Token) : Prop :=
  rest = [] ∨ ∃ others, rest = .blank :: .ofString "ON" :: others

theorem EndsSource.ends {rest : List Token} (hrest : EndsSource rest) : Ends rest := by
  rcases hrest with rfl | ⟨others, rfl⟩
  · exact .inl rfl
  · exact .inr ⟨others, .inr (.inr rfl)⟩

namespace Reader

theorem joining?_openingTokens {label : Label} (hlabel : label ∈ joins)
    (rest : List Token) :
    joining? (label.openingTokens ++ rest) = some (label, rest) := by
  simp only [joins, List.mem_cons, List.not_mem_nil, or_false] at hlabel
  rcases hlabel with rfl | rfl | rfl | rfl | rfl <;>
    simp [joining?, joins, Label.openingTokens, ofString, List.isPrefixOf?]

theorem joining?_word {letters : List Char}
    (hletters : ∀ keyword ∈ Text.reserved, letters ≠ keyword.toList) (rest : List Token) :
    joining? (.word letters :: rest) = none := by
  have hkeyword : ∀ keyword ∈ Text.reserved, ∀ others,
      (ofString keyword :: others).isPrefixOf? (.word letters :: rest) = none := by
    intro keyword hmem others
    have hne := (hletters keyword hmem).symm
    simp [List.isPrefixOf?, ofString, hne]
  have hcross := hkeyword "CROSS" (by decide)
  have houter := hkeyword "OUTER" (by decide)
  have hinner := hkeyword "INNER" (by decide)
  have hleft := hkeyword "LEFT" (by decide)
  simp only [joining?, joins, Label.openingTokens, List.findSome?_cons, hcross, houter,
    hinner, hleft, Option.map_none, List.findSome?_nil]

end Reader

section

variable [ForeignTypes]

open Session

def ReadsSource (tokens : List Token) (node : Node) : Prop :=
  ∀ᶠ fuel in atTop, ∀ rest : List Token, EndsSource rest →
    Reader.source fuel (tokens ++ rest) = some (node, rest)

namespace Reader

theorem source_word {letters : List Char}
    (hletters : ∀ keyword ∈ Text.reserved, letters ≠ keyword.toList) (fuel : Nat)
    (rest : List Token) :
    source (fuel + 1) (.word letters :: rest) = some (table letters rest) := by
  simp only [source, joining?_word hletters]

section

variable {schema : Option String} {name : String} {rest : List Token}
  (hschema : ∀ s ∈ schema, Text.IsName s) (hname : Text.IsName name)

include hschema hname

theorem table_plain (hrest : EndsSource rest) :
    table (Label.qualified schema name).toList rest =
      (.outline (.table name schema none) [], rest) := by
  have hon : Token.ofString "ON" ≠ .ofString "AS" := by decide
  rw [table, unqualify_qualified hschema hname]
  rcases hrest with rfl | ⟨others, rfl⟩
  · rfl
  · dsimp only
    split
    · rename_i heq
      injection heq with _ heq
      injection heq with hkeyword _
      rw [← hkeyword, if_neg hon]
    · rfl

theorem table_as (aliasName : String) :
    table (Label.qualified schema name).toList
        (.blank :: .ofString "AS" :: .blank :: .ofString aliasName :: rest) =
      (.outline (.table name schema (some aliasName)) [], rest) := by
  rw [table, unqualify_qualified hschema hname]
  simp [ofString]

end

end Reader

namespace Node

variable {node : Node}

theorem readsSource_table {name : String} {schema aliasName : Option String}
    (hlabel : node.label = .table name schema aliasName) (hchildren : node.children = [])
    (hnamed : node.label.Named) : ReadsSource node.tokens node.sketch := by
  rw [hlabel] at hnamed
  obtain ⟨hname, hschema, halias⟩ := hnamed
  have hsketch : node.sketch = outline (.table name schema aliasName) [] := by
    rw [sketch_eq, hlabel, hchildren]
    rfl
  have htokens : node.tokens = (Label.table name schema aliasName).openingTokens := by
    rw [tokens_eq, hlabel, hchildren]
    simp [Label.closingTokens]
  have hreserved : ∀ keyword ∈ Text.reserved,
      (Label.qualified schema name).toList ≠ keyword.toList :=
    fun keyword hkeyword => Label.toList_qualified_ne hname hkeyword
  have hparts := Reader.unqualify_qualified hschema hname
  apply eventually_of_succ (Eventually.of_forall fun _ => trivial)
  intro fuel _ rest hrest
  rw [htokens, hsketch]
  cases aliasName with
  | none =>
      have hread := Reader.source_word hreserved fuel rest
      rwa [Reader.table_plain hschema hname hrest] at hread
  | some aliasName =>
      have hread := Reader.source_word hreserved fuel
        (.blank :: .ofString "AS" :: .blank :: .ofString aliasName :: rest)
      rwa [Reader.table_as hschema hname aliasName] at hread

theorem readsSource_join {table : Node} {form : JoinForm} (hlabel : node.label = .join form)
    (hchildren : node.children = [table]) (htable : ReadsSource table.tokens table.sketch) :
    ReadsSource node.tokens node.sketch := by
  have hsketch : node.sketch = outline (.join form) [table.sketch] := by
    rw [sketch_eq, hlabel, hchildren]
    rfl
  have htokens : node.tokens = (Label.join form).openingTokens ++ table.tokens := by
    rw [tokens_eq, hlabel, hchildren]
    simp [Label.closingTokens, Label.operandTokens, Label.encloses]
  have hform : Label.join form ∈ Reader.joins := by cases form <;> decide
  apply eventually_of_succ htable
  intro fuel hread rest hrest
  rw [htokens, hsketch, List.append_assoc]
  simp only [Reader.source, Reader.joining?_openingTokens hform, hread rest hrest,
    Option.bind_eq_bind, Option.bind_some]

theorem readsSource_joinOn {table predicate : Node} {form : PredicateJoinForm}
    (hlabel : node.label = .joinOn form) (hchildren : node.children = [table, predicate])
    (htable : ReadsSource table.tokens table.sketch) (hpredicate : predicate.Readable) :
    ReadsSource node.tokens node.sketch := by
  have hsketch : node.sketch = outline (.joinOn form) [table.sketch, predicate.sketch] := by
    rw [sketch_eq, hlabel, hchildren]
    rfl
  have htokens : node.tokens = (Label.joinOn form).openingTokens ++
      (table.tokens ++ (.blank :: .ofString "ON" :: .blank :: predicate.tokens)) := by
    rw [tokens_eq, hlabel, hchildren]
    simp [Label.separatorTokens, Label.closingTokens, Label.operandTokens, Label.encloses]
  have hform : Label.joinOn form ∈ Reader.joins := by cases form <;> decide
  apply eventually_of_succ (htable.and hpredicate.expression)
  rintro fuel ⟨hread, hexpression⟩ rest hrest
  have hmiddle := hread (.blank :: .ofString "ON" :: .blank :: (predicate.tokens ++ rest))
    (.inr ⟨_, rfl⟩)
  rw [htokens, hsketch]
  simp only [List.append_assoc, List.cons_append, Reader.source,
    Reader.joining?_openingTokens hform, hmiddle, Option.bind_eq_bind, Option.bind_some,
    List.drop_succ_cons, List.drop_zero, hexpression rest hrest.ends]

theorem readsSource (hwhole : node.Whole) (hnamed : node.Named)
    (hsource : node.category = .source) : ReadsSource node.tokens node.sketch := by
  induction node using Node.inductionOn with
  | step node ih =>
      obtain ⟨hwell, hparts⟩ := whole_iff.mp hwhole
      have hself := hnamed.label
      have hcount := hwell.arity
      have hcategories := hwell.categories
      cases hlabel : node.label with
      | table name schema aliasName =>
          rw [hlabel] at hcount
          exact readsSource_table hlabel (List.length_eq_zero_iff.mp hcount) hself
      | join form =>
          rw [hlabel] at hcount
          obtain ⟨table, hchildren⟩ := List.length_eq_one_iff.mp hcount
          rw [hlabel, hchildren] at hcategories
          have htable : table ∈ node.children := by simp [hchildren]
          exact readsSource_join hlabel hchildren (ih table htable (hparts table htable)
            (hnamed.child htable) (hcategories 0 table rfl))
      | joinOn form =>
          rw [hlabel] at hcount
          obtain ⟨table, predicate, hchildren⟩ := List.length_eq_two.mp hcount
          rw [hlabel, hchildren] at hcategories
          have htable : table ∈ node.children := by simp [hchildren]
          have hpredicate : predicate ∈ node.children := by simp [hchildren]
          exact readsSource_joinOn hlabel hchildren
            (ih table htable (hparts table htable) (hnamed.child htable)
              (hcategories 0 table rfl))
            (readable (hparts predicate hpredicate) (hnamed.child hpredicate)
              (hcategories 1 predicate rfl))
      | _ =>
          rw [category, hlabel] at hsource
          cases hsource

/-! ## Texts of plans -/

theorem tokens_eq_of_print_eq {a b : Node} (ha : a.Whole) (hb : b.Whole)
    (hnamedA : a.Named) (hnamedB : b.Named) (htext : a.print ⟨false⟩ = b.print ⟨false⟩) :
    a.tokens = b.tokens := by
  refine Token.render_injective (separated_tokens ha hnamedA)
    (separated_tokens hb hnamedB) ?_
  rw [← toList_print, ← toList_print, htext]

theorem sketch_eq_of_tokens_eq {a b : Node} (ha : a.Whole) (hb : b.Whole)
    (hnamedA : a.Named) (hnamedB : b.Named) (hcategory : a.category = b.category)
    (htokens : a.tokens = b.tokens) : a.sketch = b.sketch := by
  cases hform : a.category with
  | source =>
      have hreadA := readsSource ha hnamedA hform
      have hreadB := readsSource hb hnamedB (hcategory ▸ hform)
      obtain ⟨fuel, hreadA, hreadB⟩ := (hreadA.and hreadB).exists
      have hfirst := hreadA [] (.inl rfl)
      rw [htokens, hreadB [] (.inl rfl)] at hfirst
      simpa using hfirst.symm
  | scalar =>
      have hreadA := (readable ha hnamedA hform).expression
      have hreadB := (readable hb hnamedB (hcategory ▸ hform)).expression
      obtain ⟨fuel, hreadA, hreadB⟩ := (hreadA.and hreadB).exists
      have hfirst := hreadA [] (.inl rfl)
      rw [htokens, hreadB [] (.inl rfl)] at hfirst
      simpa using hfirst.symm

/-- Two plans of one text, both table sources or both expressions, differ in
handles, annotations and types at most. -/
theorem bare_eq_of_print_eq {session other : Session} (hsession : session.Reached)
    (hother : other.Reached) {a b : Node} (ha : session.Knows a) (hb : other.Knows b)
    (hnamedA : a.Named) (hnamedB : b.Named) (hcategory : a.category = b.category)
    (htext : a.print ⟨false⟩ = b.print ⟨false⟩) : a.bare = b.bare := by
  have hwholeA := hsession.sound.whole ha
  have hwholeB := hother.sound.whole hb
  have htokens := tokens_eq_of_print_eq hwholeA hwholeB hnamedA hnamedB htext
  exact bare_eq_of_sketch_eq
    (sketch_eq_of_tokens_eq hwholeA hwholeB hnamedA hnamedB hcategory htokens)

end Node

end

open Token Filter Session
open scoped Hints

namespace Node

/-- Two joins on columns of different types. -/
theorem bare_eq_of_print_eq_joins :
    ∃ (session : Session) (a b : Node), session.Reached ∧ session.Knows a ∧
      session.Knows b ∧ a.Named ∧ b.Named ∧ a.same b = false ∧
      a.print ⟨false⟩ = "INNER JOIN t AS u ON u.c IS NULL" ∧
      a.print ⟨false⟩ = b.print ⟨false⟩ ∧ a.bare = b.bare := by
  let table := (Label.table "t" none (some "u")).node 0 .empty []
  let column := (Label.column (some "u") "c" .integer).node 1 .empty []
  let other := (Label.column (some "u") "c" .string).node 2 .empty []
  let isNull := (Label.unary .isNull).node 3 .empty [column]
  let isNull' := (Label.unary .isNull).node 4 .empty [other]
  let a := (Label.joinOn .inner).node 5 .empty [table, isNull]
  let b := (Label.joinOn .inner).node 6 .empty [table, isNull']
  let session : Session := ⟨7, [b, a, isNull', isNull, other, column, table]⟩
  have htable : Reached ⟨1, [table]⟩ := (Reached.start 0).assemble (by simp) rfl
  have hcolumn : Reached ⟨2, [column, table]⟩ := htable.assemble (by simp) rfl
  have hother : Reached ⟨3, [other, column, table]⟩ := hcolumn.assemble (by simp) rfl
  have hisNull : Reached ⟨4, [isNull, other, column, table]⟩ :=
    hother.assemble (by simp) rfl
  have hisNull' : Reached ⟨5, [isNull', isNull, other, column, table]⟩ :=
    hisNull.assemble (by simp) rfl
  have ha : Reached ⟨6, [a, isNull', isNull, other, column, table]⟩ :=
    hisNull'.assemble (by simp) rfl
  have hreached : session.Reached := ha.assemble (by simp) rfl
  have hknowsA : session.Knows a := Session.knows_of_mem_held (by simp [session])
  have hknowsB : session.Knows b := Session.knows_of_mem_held (by simp [session])
  have ht : Text.IsName "t" := ⟨⟨'t', rfl, rfl⟩, by simp, by decide⟩
  have hu : Text.IsName "u" := ⟨⟨'u', rfl, rfl⟩, by simp, by decide⟩
  have hc : Text.IsName "c" := ⟨⟨'c', rfl, rfl⟩, by simp, by decide⟩
  have hnamedTable : table.Named := named_iff.mpr ⟨⟨ht, by simp, by simpa⟩, by simp [table]⟩
  have hnamedColumn : column.Named := named_iff.mpr ⟨⟨hc, by simpa⟩, by simp [column]⟩
  have hnamedOther : other.Named := named_iff.mpr ⟨⟨hc, by simpa⟩, by simp [other]⟩
  have hnamedIsNull : isNull.Named :=
    named_iff.mpr ⟨trivial, by simpa [isNull] using hnamedColumn⟩
  have hnamedIsNull' : isNull'.Named :=
    named_iff.mpr ⟨trivial, by simpa [isNull'] using hnamedOther⟩
  have hnamedA : a.Named :=
    named_iff.mpr ⟨trivial, by simpa [a] using ⟨hnamedTable, hnamedIsNull⟩⟩
  have hnamedB : b.Named :=
    named_iff.mpr ⟨trivial, by simpa [b] using ⟨hnamedTable, hnamedIsNull'⟩⟩
  have htext : a.print ⟨false⟩ = "INNER JOIN t AS u ON u.c IS NULL" := by
    decide
  have htexts : a.print ⟨false⟩ = b.print ⟨false⟩ := by
    rfl
  have hbare := bare_eq_of_print_eq hreached hreached hknowsA hknowsB hnamedA hnamedB rfl
    htexts
  exact ⟨session, a, b, hreached, hknowsA, hknowsB, hnamedA, hnamedB, by decide, htext,
    htexts, hbare⟩

end Node

end QueryPlan
