import QueryPlan.Node.Printer
import QueryPlan.Proofs.Literal
import QueryPlan.Proofs.Node.Parts

/-!
# Tokens of printed plans

A printed plan is a row of words, quoted texts, signs and blanks.  A minus sign is
a token of its own where no word is under way.  Words are kept apart by other
tokens, and so the characters of a row determine its tokens.
-/

namespace QueryPlan

inductive Token where
  | word (chars : List Char)
  | text (chars : List Char)
  | minus
  | blank
  | opening
  | closing
  | comma
  deriving DecidableEq

namespace Token

def chars : Token → List Char
  | word chars => chars
  | text chars => '\'' :: (Text.doubled chars ++ ['\''])
  | minus => ['-']
  | blank => [' ']
  | opening => ['(']
  | closing => [')']
  | comma => [',']

def render (tokens : List Token) : List Char :=
  tokens.flatMap chars

theorem render_append (tokens others : List Token) :
    render (tokens ++ others) = render tokens ++ render others :=
  List.flatMap_append

theorem render_intercalate (separator : List Token) (rows : List (List Token)) :
    render (separator.intercalate rows) =
      (render separator).intercalate (rows.map render) := by
  induction rows with
  | nil => rfl
  | cons row rest ih =>
      cases rest with
      | nil => simp
      | cons next rest =>
          rw [List.intercalate_cons_cons, render_append, render_append, ih]
          simp [List.intercalate_cons_cons]

/-- A word has characters, is plain and does not begin with a minus sign. -/
def Valid : Token → Prop
  | word chars => chars ≠ [] ∧ chars.all Text.isPlain = true ∧ chars.head? ≠ some '-'
  | _ => True

instance decidableValid : DecidablePred Valid
  | word chars => inferInstanceAs
      (Decidable (chars ≠ [] ∧ chars.all Text.isPlain = true ∧ chars.head? ≠ some '-'))
  | text _ | minus | blank | opening | closing | comma => .isTrue trivial

/-- Words may not run into what is still a word, nor quoted texts into quoted
texts. -/
def MayPrecede : Token → Token → Prop
  | word _, word _ | word _, minus | text _, text _ => False
  | _, _ => True

instance decidableMayPrecede : DecidableRel MayPrecede := fun token next => by
  cases token <;> cases next <;> unfold MayPrecede <;> infer_instance

structure Separated (tokens : List Token) : Prop where
  valid : ∀ token ∈ tokens, token.Valid
  chain : tokens.IsChain MayPrecede

/-- Tokens that anything may follow. -/
def isLoose : Token → Bool
  | word _ | text _ => false
  | _ => true

/-- Tokens that may follow anything. -/
def isGap : Token → Bool
  | word _ | text _ | minus => false
  | _ => true

theorem mayPrecede_of_isLoose {token next : Token} (htoken : token.isLoose = true) :
    MayPrecede token next := by
  cases token <;> cases next <;> simp_all [isLoose, MayPrecede]

theorem mayPrecede_of_isGap {token next : Token} (hnext : next.isGap = true) :
    MayPrecede token next := by
  cases token <;> cases next <;> simp_all [isGap, MayPrecede]

namespace Separated

variable {tokens others : List Token}

theorem append (htokens : Separated tokens) (hothers : Separated others)
    (hjoint : ∀ token ∈ tokens.getLast?, ∀ next ∈ others.head?, MayPrecede token next) :
    Separated (tokens ++ others) where
  valid token htoken := (List.mem_append.mp htoken).elim
    (htokens.valid token) (hothers.valid token)
  chain := List.isChain_append.mpr ⟨htokens.chain, hothers.chain, hjoint⟩

theorem append_of_loose (htokens : Separated tokens) (hothers : Separated others)
    (hloose : ∀ token ∈ tokens.getLast?, token.isLoose = true) :
    Separated (tokens ++ others) :=
  htokens.append hothers fun token htoken _ _ => mayPrecede_of_isLoose (hloose token htoken)

theorem append_of_gap (htokens : Separated tokens) (hothers : Separated others)
    (hgap : ∀ next ∈ others.head?, next.isGap = true) :
    Separated (tokens ++ others) :=
  htokens.append hothers fun _ _ next hnext => mayPrecede_of_isGap (hgap next hnext)

theorem intercalate {separator : List Token} (hseparator : Separated separator)
    (hgap : ∀ next ∈ separator.head?, next.isGap = true)
    (hloose : ∀ token ∈ separator.getLast?, token.isLoose = true)
    (hne : separator ≠ []) {rows : List (List Token)}
    (hrows : ∀ row ∈ rows, Separated row) : Separated (separator.intercalate rows) := by
  induction rows with
  | nil => exact ⟨by simp, .nil⟩
  | cons row rest ih =>
      have hrow := hrows row List.mem_cons_self
      have hrest := ih fun other hother => hrows other (List.mem_cons_of_mem row hother)
      cases rest with
      | nil => simpa using hrow
      | cons next rest =>
          rw [List.intercalate_cons_cons]
          apply (hrow.append_of_gap hseparator hgap).append_of_loose hrest
          rwa [List.getLast?_append_of_ne_nil _ hne]

end Separated

/-- The token that a first character shows, up to the rest of it. -/
def ofLead (c : Char) : Token :=
  if c = '\'' then text []
  else if c = '-' then minus
  else if c = ' ' then blank
  else if c = '(' then opening
  else if c = ')' then closing
  else if c = ',' then comma
  else word []

/-- A token without the characters of a word or a text. -/
def shape : Token → Token
  | word _ => word []
  | text _ => text []
  | token => token

theorem exists_lead {token : Token} (htoken : token.Valid) :
    ∃ c rest, token.chars = c :: rest ∧ ofLead c = token.shape := by
  cases token with
  | word chars =>
      obtain ⟨hne, hplain, hminus⟩ := htoken
      obtain ⟨c, rest, rfl⟩ := List.exists_cons_of_ne_nil hne
      have hc := List.all_eq_true.mp hplain c List.mem_cons_self
      have hc' : c ≠ '-' := by simpa using hminus
      simp only [Text.isPlain, Bool.and_eq_true, bne_iff_ne] at hc
      exact ⟨c, rest, rfl, by simp [ofLead, shape, hc, hc']⟩
  | _ => exact ⟨_, _, rfl, rfl⟩

theorem not_plain_of_word {chars : List Char} {rest : List Token}
    (hseparated : Separated (word chars :: rest)) :
    ∀ c ∈ (render rest).head?, ¬ Text.isPlain c = true := by
  cases rest with
  | nil => simp [render]
  | cons next rest =>
      have hnext := (List.isChain_cons_cons.mp hseparated.chain).1
      cases next <;> simp_all [MayPrecede, render, Token.chars, Text.isPlain]

theorem not_quote_of_text {chars : List Char} {rest : List Token}
    (hseparated : Separated (text chars :: rest)) :
    (render rest).head? ≠ some '\'' := by
  cases rest with
  | nil => simp [render]
  | cons next rest =>
      have hnext := (List.isChain_cons_cons.mp hseparated.chain).1
      cases next with
      | word word =>
          obtain ⟨hne, hplain, -⟩ := hseparated.valid (.word word) (by simp)
          obtain ⟨c, cs, rfl⟩ := List.exists_cons_of_ne_nil hne
          have hc := List.all_eq_true.mp hplain c List.mem_cons_self
          rintro hquote
          simp only [render, List.flatMap_cons, Token.chars, List.cons_append,
            List.head?_cons, Option.some.injEq] at hquote
          rw [hquote] at hc
          exact absurd hc (by decide)
      | _ => simp_all [MayPrecede, render, Token.chars]

theorem Separated.tail {token : Token} {rest : List Token}
    (hseparated : Separated (token :: rest)) : Separated rest where
  valid other hother := hseparated.valid other (List.mem_cons_of_mem token hother)
  chain := hseparated.chain.tail

/-- The characters of a separated row determine its tokens. -/
theorem render_injective {as bs : List Token} (has : Separated as) (hbs : Separated bs)
    (heq : render as = render bs) : as = bs := by
  induction as generalizing bs with
  | nil =>
      cases bs with
      | nil => rfl
      | cons b bs =>
          obtain ⟨c, rest, hlead, -⟩ := exists_lead (hbs.valid b List.mem_cons_self)
          simp [render, hlead] at heq
  | cons a as ih =>
      obtain ⟨c, rest, hleadA, hshapeA⟩ := exists_lead (has.valid a List.mem_cons_self)
      cases bs with
      | nil => simp [render, hleadA] at heq
      | cons b bs =>
          obtain ⟨c', rest', hleadB, hshapeB⟩ :=
            exists_lead (hbs.valid b List.mem_cons_self)
          have hfirst : c = c' := by
            simp only [render, List.flatMap_cons, hleadA, hleadB, List.cons_append,
              List.cons.injEq] at heq
            exact heq.1
          have hshape : a.shape = b.shape := by rw [← hshapeA, ← hshapeB, hfirst]
          simp only [render, List.flatMap_cons] at heq
          cases a with
          | word chars =>
              cases b <;> cases hshape
              rename_i chars'
              obtain ⟨rfl, hrest⟩ := Text.split_unique
                (p := fun c => Text.isPlain c = true)
                (List.all_eq_true.mp (has.valid (.word chars) List.mem_cons_self).2.1)
                (List.all_eq_true.mp (hbs.valid (.word chars') List.mem_cons_self).2.1)
                (not_plain_of_word has) (not_plain_of_word hbs) heq
              rw [ih has.tail hbs.tail hrest]
          | text chars =>
              cases b <;> cases hshape
              rename_i chars'
              simp only [Token.chars, List.cons_append, List.append_assoc,
                List.cons.injEq, true_and, List.nil_append] at heq
              obtain ⟨rfl, hrest⟩ := Text.doubled_unique
                (not_quote_of_text has) (not_quote_of_text hbs) heq
              rw [ih has.tail hbs.tail hrest]
          | _ =>
              cases b <;> cases hshape
              rw [ih has.tail hbs.tail (by simpa [Token.chars, render] using heq)]

end Token

end QueryPlan
