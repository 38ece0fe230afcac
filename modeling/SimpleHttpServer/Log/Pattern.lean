import SimpleHttpServer.Log.Scan
import Mathlib.Data.List.Chain

/-! Patterns as lists of tokens.

A token is a piece of plain text or a directive with or without a brace argument.
Written one after the other, tokens are read back one by one, as long as no token
runs into the next: text is not followed by text, and a directive without braces
not by text that could go on with its name. -/
namespace SimpleHttpServer.LogFormatter

inductive Token
  | literal (text : List Char)
  | directive (name : List Char) (arg : Option (List Char))
  deriving DecidableEq, Repr

namespace Token

/-- `%name` or `%name{arg}`. -/
def text : Token → List Char
  | literal text => text
  | directive name none => '%' :: name
  | directive name (some arg) => '%' :: (name ++ '{' :: (arg ++ ['}']))

/-- Text without `%`, or a name of letters and an argument without a closing brace. -/
def Ok : Token → Prop
  | literal text => text ≠ [] ∧ '%' ∉ text
  | directive name arg => name ≠ [] ∧ (∀ c ∈ name, isAlpha c = true) ∧ ∀ a, arg = some a → '}' ∉ a

/-- What may stand behind what. -/
def Before : Token → Token → Prop
  | literal _, literal _ => False
  | directive _ none, literal text =>
    ∀ c, text.head? = some c → isAlpha c = false ∧ c ≠ '{' ∧ c ≠ '}'
  | _, _ => True

/-- The entry a token is read as. -/
def piece : Token → Piece
  | literal text => ⟨text, [], false⟩
  | directive name arg => ⟨name, arg.getD [], true⟩

/-- The item of a token: a string item for text, the item of its name with its argument for a
directive, and an error text for a name that is not in the table. -/
def item : Token → FormatItem
  | literal text => .string (String.ofList text)
  | directive name arg =>
    match formatItems.lookup (String.ofList name) with
    | some make => make (String.ofList (arg.getD []))
    | none => .string ("<<error_format %" ++ String.ofList name ++ ">>")

/-- A directive whose name is not in the table. -/
def unknown : Token → Bool
  | literal _ => false
  | directive name _ => (formatItems.lookup (String.ofList name)).isNone

theorem piece_item (t : Token) : t.piece.item = (t.item, t.unknown) := by
  cases t with
  | literal text => rfl
  | directive name arg =>
    simp only [piece, Piece.item, item, unknown, ↓reduceIte]
    cases formatItems.lookup (String.ofList name) <;> rfl

end Token

/-- The text of tokens. -/
def Token.texts (tokens : List Token) : List Char := tokens.flatMap Token.text

/-- Entries read from here on. -/
def Parse.append (r : Parse) (es : List Piece) : Parse := {r with vec := r.vec ++ es}

theorem parse_literal {text : List Char} (h : '%' ∉ text) (rest : List Char) (r : Parse) :
    parse (text ++ rest) r = parse rest {r with nstr := r.nstr ++ text} := by
  induction text generalizing r with
  | nil => simp
  | cons c text ih =>
    obtain ⟨hc, htext⟩ : '%' ≠ c ∧ '%' ∉ text := by simpa using h
    rw [List.cons_append, parse, if_pos (Ne.symm hc), ih htext]
    simp [Parse.plain]

theorem parse_directive {cs name arg rest : List Char} (hhead : cs.head? ≠ some '%')
    (h : Reads cs (some (name, arg, rest))) (r : Parse) :
    parse ('%' :: cs) r = parse rest (r.flush.push ⟨name, arg, true⟩) := by
  rw [parse, if_neg (by simp), if_neg hhead]
  split
  case h_1 heq =>
    rw [h.eq] at heq
    cases heq
    rfl
  case h_2 heq =>
    rw [h.eq] at heq
    cases heq

theorem flush_nstr (r : Parse) : r.flush.nstr = [] := by
  unfold Parse.flush
  split
  · exact List.isEmpty_iff.mp ‹_›
  · rfl

theorem flush_of_nil {r : Parse} (h : r.nstr = []) : r.flush = r := by
  simp [Parse.flush, h]

/-- Tokens that can stand next to each other. -/
structure WellFormed (tokens : List Token) : Prop where
  ok : ∀ t ∈ tokens, t.Ok
  before : tokens.IsChain Token.Before

theorem WellFormed.tail {t : Token} {rest : List Token} (h : WellFormed (t :: rest)) :
    WellFormed rest :=
  ⟨fun t' ht' => h.ok t' (List.mem_cons_of_mem t ht'), h.before.tail⟩

/-- Behind a directive without braces its name ends. -/
theorem WellFormed.stops {name : List Char} {rest : List Token}
    (h : WellFormed (.directive name none :: rest)) {c : Char}
    (hc : (Token.texts rest).head? = some c) : nameChar c = false ∧ c ≠ '{' := by
  cases rest with
  | nil => cases hc
  | cons t rest =>
    have ht := h.tail.ok t (List.mem_cons_self ..)
    have hbefore := (List.isChain_cons_cons.mp h.before).1
    cases t with
    | literal text =>
      obtain ⟨d, text', rfl⟩ := List.exists_cons_of_ne_nil ht.1
      obtain ⟨halpha, hopen, hclose⟩ := hbefore c hc
      exact ⟨by simp [nameChar, halpha, hclose], hopen⟩
    | directive name' arg =>
      have hpercent : c = '%' := by
        cases arg with
        | none => exact (Option.some.inj hc).symm
        | some a => exact (Option.some.inj hc).symm
      subst hpercent
      exact ⟨rfl, by decide⟩

/-- Behind the `%` of a directive are its name and its argument. -/
theorem WellFormed.reads {name : List Char} {arg : Option (List Char)} {rest : List Token}
    (h : WellFormed (.directive name arg :: rest)) :
    ∃ cs, Token.texts (.directive name arg :: rest) = '%' :: cs ∧ cs.head? ≠ some '%' ∧
      Reads cs (some (name, arg.getD [], Token.texts rest)) := by
  obtain ⟨hne, halpha, harg⟩ := h.ok _ (List.mem_cons_self ..)
  have hname : ∀ c ∈ name, nameChar c = true := fun c hc => by simp [nameChar, halpha c hc]
  have hhead : ∀ cs, (name ++ cs).head? ≠ some '%' := by
    intro cs
    obtain ⟨d, name', rfl⟩ := List.exists_cons_of_ne_nil hne
    intro heq
    have hd := halpha d (List.mem_cons_self ..)
    rw [Option.some.inj heq] at hd
    cases hd
  cases arg with
  | none => exact ⟨name ++ Token.texts rest, rfl, hhead _, .bare _ _ hname fun c hc => h.stops hc⟩
  | some a =>
    have htext : Token.texts (.directive name (some a) :: rest) =
        '%' :: (name ++ '{' :: (a ++ '}' :: Token.texts rest)) := by
      simp [Token.texts, Token.text]
    exact ⟨_, htext, hhead _, .closed _ _ _ hname (harg a rfl)⟩

/-- Tokens are read one by one behind what is pending. -/
theorem parse_texts {tokens : List Token} (h : WellFormed tokens) {r : Parse}
    (hpending : r.nstr = [] ∨ ∀ text, tokens.head? ≠ some (.literal text)) :
    (parse (Token.texts tokens) r).flush = r.flush.append (tokens.map Token.piece) := by
  induction tokens generalizing r with
  | nil => simp [Token.texts, parse, Parse.append]
  | cons t rest ih =>
    cases t with
    | literal text =>
      have ht := h.ok _ (List.mem_cons_self ..)
      have hempty : r.nstr = [] := hpending.resolve_right fun hne => hne text rfl
      have hnext : ∀ text', rest.head? ≠ some (.literal text') := by
        intro text' hhead
        obtain ⟨rest', hrest'⟩ := List.head?_eq_some_iff.mp hhead
        rw [hrest'] at h
        exact (List.isChain_cons_cons.mp h.before).1
      show (parse (text ++ Token.texts rest) r).flush = _
      rw [parse_literal ht.2, ih h.tail (.inr hnext)]
      simp [Parse.flush, Parse.append, hempty, ht.1, Token.piece]
    | directive name arg =>
      obtain ⟨cs, htext, hhead, hreads⟩ := h.reads
      have hnone : (r.flush.push ⟨name, arg.getD [], true⟩).nstr = [] := flush_nstr r
      rw [htext, parse_directive hhead hreads, ih h.tail (.inl hnone), flush_of_nil hnone]
      simp [Parse.push, Parse.append, Token.piece]

/-- What the formatter of well-formed tokens is: an item to a token, and an error exactly if there
is a name that is not in the table. -/
theorem init_texts {tokens : List Token} (h : WellFormed tokens) :
    init (String.ofList (Token.texts tokens)) =
      (tokens.map Token.item, tokens.any Token.unknown) := by
  have hparse : (parse (Token.texts tokens) ⟨[], [], false⟩).flush =
      ⟨[], tokens.map Token.piece, false⟩ := parse_texts h (.inl rfl)
  rw [init_eq, String.toList_ofList, hparse]
  simp [List.map_map, List.any_map, Function.comp_def, Token.piece_item]

/-- The formatter of the text of well-formed tokens has one item to a token, in order, and an error
exactly if some directive's name is not in the table. -/
theorem new_texts (tokens : List Token) (h : WellFormed tokens) :
    (new (String.ofList (Token.texts tokens))).items = tokens.map Token.item ∧
      ((new (String.ofList (Token.texts tokens))).isError = true ↔
        ∃ name arg, .directive name arg ∈ tokens ∧
          formatItems.lookup (String.ofList name) = none) := by
  have hinit := init_texts h
  refine ⟨congrArg Prod.fst hinit, ?_⟩
  have herror : (new (String.ofList (Token.texts tokens))).isError = tokens.any Token.unknown :=
    congrArg Prod.snd hinit
  rw [herror, List.any_eq_true]
  constructor
  · intro ⟨t, ht, hunknown⟩
    cases t with
    | literal text => cases hunknown
    | directive name arg => exact ⟨name, arg, ht, Option.isNone_iff_eq_none.mp hunknown⟩
  · intro ⟨name, arg, ht, hnone⟩
    exact ⟨_, ht, Option.isNone_iff_eq_none.mpr hnone⟩

/-- A time in brackets, the level, an unknown directive, a message. -/
def lineTokens : List Token :=
  [.literal ['['], .directive ['d'] (some ['%', 'H', '\x7b']), .literal [']'], .directive ['p'] none,
    .directive ['x', 'y'] (some []), .directive ['m'] none]

theorem lineTokens_wellFormed : WellFormed lineTokens := by
  constructor
  · simp [lineTokens, Token.Ok, isAlpha]
  · simp [lineTokens, Token.Before]

/-- The items of its text: the date has its argument, and the unknown directive says what it is. -/
theorem lineTokens_read :
    (new "[%d\x7b%H\x7b\x7d]%p%xy\x7b\x7d%m").items =
      [.string "[", .dateTime "%H\x7b", .string "]", .level, .string "<<error_format %xy>>",
        .message] ∧
      (new "[%d\x7b%H\x7b\x7d]%p%xy\x7b\x7d%m").isError = true := by
  have htext : String.ofList (Token.texts lineTokens) = "[%d\x7b%H\x7b\x7d]%p%xy\x7b\x7d%m" := by
    decide
  obtain ⟨hitems, herror⟩ := new_texts lineTokens lineTokens_wellFormed
  rw [htext] at hitems herror
  refine ⟨hitems.trans (by decide), herror.mpr ⟨['x', 'y'], some [], ?_, by decide⟩⟩
  simp [lineTokens]

end SimpleHttpServer.LogFormatter
