import SimpleHttpServer.Log.Format
import Mathlib.Algebra.GroupWithZero.Nat

/-! Text with its percent signs doubled.

`%%` stands for a percent sign: the scan takes the first `%` of the pair as text
and goes on with the second, which then starts a directive of its own unless
another `%` follows. Text with a percent sign therefore never prints as itself
when its percent signs are doubled. Text without one does, between any directives
with brace arguments. -/
namespace SimpleHttpServer.LogFormatter

/-- Each percent sign doubled. -/
def escape (s : List Char) : List Char := s.flatMap fun c => if c = '%' then ['%', '%'] else [c]

/-- A directive of the table with a brace argument. -/
structure Braced where
  name : String
  arg : List Char
  make : String → FormatItem
  known : formatItems.lookup name = some make
  closed : '}' ∉ arg

namespace Braced

def token (d : Braced) : Token := .directive d.name.toList (some d.arg)

def item (d : Braced) : FormatItem := d.make (String.ofList d.arg)

end Braced

/-- The item of a directive, not of text. -/
def isDirective : FormatItem → Bool
  | .string _ => false
  | _ => true

/-- The formatter of escaped text between directives. -/
def around (before : List Braced) (s : List Char) (after : List Braced) : LogFormatter :=
  new (String.ofList (Token.texts (before.map Braced.token) ++ escape s ++
    Token.texts (after.map Braced.token)))

/-- The escaped text prints as the text, alone and between directives, and is not read as part of
one. -/
structure PrintsItself (cal : Calendar) (s : List Char) : Prop where
  noError : ∀ before after, (around before s after).isError = false
  output : ∀ before after logger level event,
    (around before s after).format cal logger level event =
      FormatItem.formats cal logger level event (before.map Braced.item) ++ String.ofList s ++
        FormatItem.formats cal logger level event (after.map Braced.item)
  directives : ∀ before after, (around before s after).items.filter isDirective =
    before.map Braced.item ++ after.map Braced.item

/-! ### Text without a percent sign -/

theorem escape_of_not_mem {s : List Char} (h : '%' ∉ s) : escape s = s := by
  have hsingle : ∀ c ∈ s, (if c = '%' then ['%', '%'] else [c]) = [c] := by
    intro c hc
    rw [if_neg]
    intro heq
    exact h (heq ▸ hc)
  rw [escape, List.flatMap_congr hsingle]
  exact List.flatMap_singleton' s

/-- The characters of the table's names. -/
def isName (c : Char) : Bool := "mprctndflTFN".toList.contains c

theorem formatItems_entry :
    ∀ e ∈ formatItems, (e.1.toList.length = 1 ∧ (e.1.toList.all isName) = true) ∧
      ∀ arg, isDirective (e.2 arg) = true := by
  simp [formatItems, isDirective, newDateTime, isName]

/-- A name of the table is one letter. -/
theorem known_name {name : String} {make : String → FormatItem}
    (h : formatItems.lookup name = some make) : ∃ c, name.toList = [c] ∧ isName c = true := by
  obtain ⟨before, after, hsplit, -⟩ := List.lookup_eq_some_iff.mp h
  obtain ⟨⟨hlen, hall⟩, -⟩ := formatItems_entry (name, make) (by simp [hsplit])
  obtain ⟨c, hc⟩ := List.length_eq_one_iff.mp hlen
  refine ⟨c, hc, ?_⟩
  simpa [hc] using hall

theorem isAlpha_of_isName {c : Char} (h : isName c = true) : isAlpha c = true := by
  have hall : "mprctndflTFN".toList.all isAlpha = true := by decide
  exact List.all_eq_true.mp hall c (by simpa [isName] using h)

theorem Braced.token_ok (d : Braced) : d.token.Ok := by
  obtain ⟨c, hname, hc⟩ := known_name d.known
  refine ⟨by simp [hname], ?_, ?_⟩
  · intro e he
    rw [hname, List.mem_singleton] at he
    rw [he]
    exact isAlpha_of_isName hc
  · intro a ha
    rw [← Option.some.inj ha]
    exact d.closed

theorem Braced.token_item (d : Braced) : d.token.item = d.item := by
  simp [token, Token.item, item, d.known, String.ofList_toList]

theorem Braced.token_known (d : Braced) : d.token.unknown = false := by
  simp [token, Token.unknown, d.known, String.ofList_toList]

theorem Braced.isDirective_item (d : Braced) : isDirective d.item = true := by
  obtain ⟨before, after, hsplit, -⟩ := List.lookup_eq_some_iff.mp d.known
  exact (formatItems_entry (d.name, d.make) (by simp [hsplit])).2 _

/-- Text between directives, as tokens. -/
def framed (before : List Braced) (s : List Char) (after : List Braced) : List Token :=
  before.map Braced.token ++ ((if s = [] then [] else [.literal s]) ++ after.map Braced.token)

/-- Anything may stand behind a closed brace. -/
theorem chain_braced (ds : List Braced) {rest : List Token} (h : rest.IsChain Token.Before) :
    (ds.map Braced.token ++ rest).IsChain Token.Before := by
  induction ds with
  | nil => exact h
  | cons d ds ih =>
    refine List.isChain_cons.mpr ⟨fun t _ => ?_, ih⟩
    cases t <;> exact trivial

theorem framed_wellFormed {s : List Char} (h : '%' ∉ s) (before after : List Braced) :
    WellFormed (framed before s after) := by
  have hafter : (after.map Braced.token).IsChain Token.Before := by
    simpa using chain_braced after List.IsChain.nil
  constructor
  · intro t ht
    simp only [framed, List.mem_append, List.mem_map] at ht
    obtain ⟨d, -, rfl⟩ | hs | ⟨d, -, rfl⟩ := ht
    · exact d.token_ok
    · split at hs
      · cases hs
      · rw [List.mem_singleton.mp hs]
        exact ⟨‹_›, h⟩
    · exact d.token_ok
  · apply chain_braced
    split
    · exact hafter
    · refine List.isChain_cons.mpr ⟨fun t ht => ?_, hafter⟩
      obtain ⟨d, -, rfl⟩ := List.mem_map.mp (List.mem_of_mem_head? ht)
      exact trivial

/-- Without percent signs the pattern is the text of the tokens. -/
theorem around_eq {s : List Char} (h : '%' ∉ s) (before after : List Braced) :
    around before s after = new (String.ofList (Token.texts (framed before s after))) := by
  unfold around framed
  rw [escape_of_not_mem h]
  by_cases hs : s = []
  · simp [hs, Token.texts]
  · simp [hs, Token.texts, Token.text]

theorem around_init {s : List Char} (h : '%' ∉ s) (before after : List Braced) :
    (around before s after).items = (framed before s after).map Token.item ∧
      (around before s after).isError = (framed before s after).any Token.unknown := by
  have hinit := init_texts (framed_wellFormed h before after)
  rw [around_eq h]
  exact ⟨congrArg Prod.fst hinit, congrArg Prod.snd hinit⟩

theorem framed_items (before after : List Braced) (s : List Char) :
    (framed before s after).map Token.item =
      before.map Braced.item ++
        ((if s = [] then [] else [.string (String.ofList s)]) ++ after.map Braced.item) := by
  have hitems : ∀ ds : List Braced, (ds.map Braced.token).map Token.item = ds.map Braced.item := by
    intro ds
    simp [Braced.token_item]
  simp only [framed, List.map_append, hitems]
  split <;> rfl

theorem printsItself_of_not_mem (cal : Calendar) {s : List Char} (h : '%' ∉ s) :
    PrintsItself cal s := by
  constructor
  · intro before after
    rw [(around_init h before after).2]
    have hknown : ∀ ds : List Braced, (ds.map Braced.token).any Token.unknown = false := by
      intro ds
      simp [Braced.token_known]
    simp only [framed, List.any_append, hknown, Bool.false_or, Bool.or_false]
    split <;> rfl
  · intro before after logger level event
    show FormatItem.formats cal logger level event (around before s after).items = _
    rw [(around_init h before after).1, framed_items, FormatItem.formats_append,
      FormatItem.formats_append, String.append_assoc]
    have htext : FormatItem.formats cal logger level event
        (if s = [] then [] else [.string (String.ofList s)]) = String.ofList s := by
      split
      · simp [*, FormatItem.formats]
      · simp [FormatItem.formats, FormatItem.format]
    rw [htext]
  · intro before after
    have hall : ∀ ds : List Braced,
        (ds.map Braced.item).filter isDirective = ds.map Braced.item := by
      intro ds
      refine List.filter_eq_self.mpr fun i hi => ?_
      obtain ⟨d, -, rfl⟩ := List.mem_map.mp hi
      exact d.isDirective_item
    rw [(around_init h before after).1, framed_items, List.filter_append, List.filter_append, hall,
      hall]
    split <;> simp [isDirective]

/-! ### Text with a percent sign -/

/-- How many characters of a text are names of directives. -/
def names (cs : List Char) : ℕ := cs.countP isName

theorem names_escape (s : List Char) : names (escape s) = names s := by
  unfold names
  induction s with
  | nil => rfl
  | cons c rest ih =>
    have hcons : escape (c :: rest) = (if c = '%' then ['%', '%'] else [c]) ++ escape rest := rfl
    rw [hcons, List.countP_append, ih, List.countP_cons]
    by_cases hc : c = '%'
    · subst hc
      simp [isName]
    · simp [hc, List.countP_cons, Nat.add_comm]

theorem escape_mem {s : List Char} (h : '%' ∈ s) : '%' ∈ escape s :=
  List.mem_flatMap.mpr ⟨'%', h, by simp⟩

/-- A directive whose brace is closed, or that has none, is read as its entry. -/
theorem parse_complete {rest name arg rest' : List Char} (hescape : rest.head? ≠ some '%')
    (hd : directive rest = some (name, arg, rest')) (r : Parse) :
    parse ('%' :: rest) r = parse rest' (r.flush.push ⟨name, arg, true⟩) := by
  have hreads := directive_reads rest
  rw [hd] at hreads
  exact parse_directive hescape hreads r

theorem parse_unclosed {rest : List Char} (hescape : rest.head? ≠ some '%')
    (hd : directive rest = none) (r : Parse) :
    parse ('%' :: rest) r = parse rest {r.push patternError with error := true} := by
  rw [parse, if_neg (by simp), if_neg hescape]
  split
  case h_1 heq =>
    rw [hd] at heq
    cases heq
  case h_2 => rfl

theorem flush_keeps (r : Parse) : r.flush.error = r.error ∧ ∀ e ∈ r.vec, e ∈ r.flush.vec := by
  unfold Parse.flush
  split
  · exact ⟨rfl, fun e he => he⟩
  · exact ⟨rfl, fun e he => List.mem_append_left _ he⟩

/-- What is read stays. -/
theorem parse_keeps (cs : List Char) (r : Parse) :
    (r.error = true → (parse cs r).error = true) ∧ ∀ e ∈ r.vec, e ∈ (parse cs r).vec := by
  induction cs, r using parse.induct with
  | case1 r =>
    rw [parse]
    exact ⟨id, fun e he => he⟩
  | case2 c rest r hc ih =>
    rw [parse, if_pos hc]
    exact ih
  | case3 c rest r hc hescape ih =>
    rw [parse, if_neg hc, if_pos hescape]
    exact ih
  | case4 c rest r hc hescape name arg rest' hd ih =>
    rw [not_not.mp hc, parse_complete hescape hd]
    obtain ⟨herror, hvec⟩ := flush_keeps r
    refine ⟨fun h => ih.1 (herror.trans h), fun e he => ih.2 e ?_⟩
    exact List.mem_append_left _ (hvec e he)
  | case5 c rest r hc hescape hd ih =>
    rw [not_not.mp hc, parse_unclosed hescape hd]
    exact ⟨fun _ => ih.1 rfl, fun e he => ih.2 e (List.mem_append_left _ he)⟩

/-- A percent sign starts a directive, read or not closed. -/
theorem parse_percent {cs : List Char} {r : Parse} (h : '%' ∈ cs)
    (herror : (parse cs r).error = false) : ∃ e ∈ (parse cs r).vec, e.directive = true := by
  induction cs, r using parse.induct with
  | case1 r => cases h
  | case2 c rest r hc ih =>
    rw [parse, if_pos hc] at herror ⊢
    exact ih ((List.mem_cons.mp h).resolve_left (Ne.symm hc)) herror
  | case3 c rest r hc hescape ih =>
    rw [parse, if_neg hc, if_pos hescape] at herror ⊢
    exact ih (List.mem_of_mem_head? hescape) herror
  | case4 c rest r hc hescape name arg rest' hd ih =>
    rw [not_not.mp hc, parse_complete hescape hd]
    exact ⟨_, (parse_keeps _ _).2 _ (List.mem_append_right _ (List.mem_singleton_self _)), rfl⟩
  | case5 c rest r hc hescape hd ih =>
    rw [not_not.mp hc, parse_unclosed hescape hd] at herror
    rw [(parse_keeps _ _).1 rfl] at herror
    cases herror

/-- Names in what has been read. -/
def Parse.names (r : Parse) : ℕ :=
  LogFormatter.names r.nstr + (r.vec.map fun e => LogFormatter.names e.str).sum

theorem names_flush (r : Parse) : r.flush.names = r.names := by
  unfold Parse.flush
  split
  · rfl
  · simp [Parse.names, names, Nat.add_comm]

theorem names_directive {rest name arg rest' : List Char}
    (hd : directive rest = some (name, arg, rest')) : names name + names rest' ≤ names rest := by
  have hreads := directive_reads rest
  rw [hd] at hreads
  unfold names
  cases hreads with
  | bare => simp
  | closed =>
    simp only [List.countP_append, List.countP_cons]
    omega

/-- Without an error, no name is read that is not in the pattern. -/
theorem parse_names {cs : List Char} {r : Parse} (herror : (parse cs r).error = false) :
    (parse cs r).names ≤ r.names + names cs := by
  induction cs, r using parse.induct with
  | case1 r =>
    rw [parse]
    exact Nat.le_add_right ..
  | case2 c rest r hc ih =>
    rw [parse, if_pos hc] at herror ⊢
    have hrest := ih herror
    simp only [Parse.names, Parse.plain, names, List.countP_append, List.countP_cons,
      List.countP_nil] at hrest ⊢
    omega
  | case3 c rest r hc hescape ih =>
    rw [parse, if_neg hc, if_pos hescape] at herror ⊢
    have hrest := ih herror
    have hpercent : isName '%' = false := by decide
    simp only [Parse.names, Parse.plain, names, List.countP_append, List.countP_cons,
      List.countP_nil, hpercent, Bool.false_eq_true, ↓reduceIte] at hrest ⊢
    omega
  | case4 c rest r hc hescape name arg rest' hd ih =>
    rw [not_not.mp hc, parse_complete hescape hd] at herror ⊢
    have hrest := ih herror
    have hname := names_directive hd
    have hflush := names_flush r
    simp only [Parse.names, Parse.push, names, List.map_append, List.map_cons, List.map_nil,
      List.sum_append, List.sum_cons, List.sum_nil, List.countP_cons] at hrest hname hflush ⊢
    omega
  | case5 c rest r hc hescape hd ih =>
    rw [not_not.mp hc, parse_unclosed hescape hd] at herror
    rw [(parse_keeps _ _).1 rfl] at herror
    cases herror

/-- An event with nothing in it. -/
def mute (time : UInt64) : LogEvent := ⟨"", 0, 0, 0, 0, time, "", ""⟩

/-- At a time that is no date, no directive writes a name for it. -/
theorem formatItems_mute {cal : Calendar} {time : UInt64}
    (htime : cal.localtime time.toInt64 = none) :
    ∀ e ∈ formatItems, ∀ arg,
      names ((e.2 arg).format cal (.new "") .debug (mute time)).toList = 0 := by
  intro e he arg
  simp only [formatItems, List.mem_cons, List.not_mem_nil, or_false] at he
  obtain rfl | rfl | rfl | rfl | rfl | rfl | rfl | rfl | rfl | rfl | rfl | rfl := he
  all_goals simp only [FormatItem.format, newDateTime, mute, Logger.new, htime]
  all_goals rfl

/-- Text is all that has names in it then, and each directive of the pattern has lost one. -/
theorem names_format {cal : Calendar} {time : UInt64} (htime : cal.localtime time.toInt64 = none)
    (e : Piece) (hknown : e.item.2 = false) :
    names (e.item.1.format cal (.new "") .debug (mute time)).toList + (if e.directive then 1 else 0) =
      names e.str := by
  unfold Piece.item at hknown ⊢
  cases hdirective : e.directive with
  | false => simp [FormatItem.format]
  | true =>
    rw [hdirective] at hknown
    cases hlookup : formatItems.lookup (String.ofList e.str) with
    | none => simp [hlookup] at hknown
    | some make =>
      obtain ⟨before, after, hsplit, -⟩ := List.lookup_eq_some_iff.mp hlookup
      obtain ⟨c, hname, hc⟩ := known_name hlookup
      rw [String.toList_ofList] at hname
      have hmute := formatItems_mute htime (String.ofList e.str, make) (by simp [hsplit])
        (String.ofList e.fmt)
      have hone : names e.str = 1 := by simp [hname, names, hc]
      simp only [↓reduceIte]
      rw [hone]
      exact congrArg (· + 1) hmute

theorem names_formats {cal : Calendar} {time : UInt64} (htime : cal.localtime time.toInt64 = none)
    {vec : List Piece} (hknown : ∀ e ∈ vec, e.item.2 = false) :
    names (FormatItem.formats cal (.new "") .debug (mute time) (vec.map fun e => e.item.1)).toList +
      vec.countP (·.directive) = (vec.map fun e => names e.str).sum := by
  rw [FormatItem.toList_formats]
  induction vec with
  | nil => rfl
  | cons e rest ih =>
    have hrest := ih fun e he => hknown e (List.mem_cons_of_mem _ he)
    have hfirst := names_format htime e (hknown e (List.mem_cons_self ..))
    unfold names at hrest hfirst ⊢
    simp only [List.map_cons, List.flatMap_cons, List.countP_append, List.countP_cons,
      List.sum_cons]
    omega

/-- A percent sign makes a directive, and the name of the directive is missing from what is
written. -/
theorem not_mem_of_printsItself {cal : Calendar} {time : UInt64}
    (htime : cal.localtime time.toInt64 = none) {s : List Char} (h : PrintsItself cal s) :
    '%' ∉ s := by
  intro hs
  have hnew : around [] s [] = new (String.ofList (escape s)) := by
    simp [around, Token.texts]
  have hinit := init_eq (String.ofList (escape s))
  rw [String.toList_ofList] at hinit
  have herror : (init (String.ofList (escape s))).2 = false := by
    have hno := h.noError [] []
    rwa [hnew] at hno
  have houtput : FormatItem.formats cal (.new "") .debug (mute time)
      (init (String.ofList (escape s))).1 = String.ofList s := by
    have hout := h.output [] [] (.new "") .debug (mute time)
    rw [hnew] at hout
    have hnone : FormatItem.formats cal (.new "") .debug (mute time) [] = "" := rfl
    rwa [List.map_nil, hnone, String.empty_append, String.append_empty] at hout
  rw [hinit] at herror houtput
  obtain ⟨hflush, hany⟩ := Bool.or_eq_false_iff.mp herror
  have hknown := List.any_eq_false.mp hany
  rw [(flush_keeps _).1] at hflush
  obtain ⟨e, he, hdirective⟩ := parse_percent (escape_mem hs) hflush
  have hpos : 0 < (parse (escape s) ⟨[], [], false⟩).flush.vec.countP (·.directive) :=
    List.countP_pos_iff.mpr ⟨e, (flush_keeps _).2 e he, hdirective⟩
  have hwritten := names_formats htime fun e he => Bool.eq_false_iff.mpr (hknown e he)
  rw [houtput, String.toList_ofList] at hwritten
  have hread := parse_names hflush
  rw [names_escape, ← names_flush] at hread
  have hstart : Parse.names ⟨[], [], false⟩ = 0 := rfl
  unfold Parse.names at hread hstart
  omega

/-- The calendar functions refuse some time. Then escaped text prints as itself exactly if there is
nothing to escape. -/
theorem printsItself_iff (cal : Calendar) (hcal : ∃ time : UInt64, cal.localtime time.toInt64 = none)
    (s : List Char) : PrintsItself cal s ↔ '%' ∉ s := by
  obtain ⟨time, htime⟩ := hcal
  exact ⟨not_mem_of_printsItself htime, printsItself_of_not_mem cal⟩

/-- Text with nothing to escape, and text that ends in a percent sign. -/
theorem percent_printsItself :
    PrintsItself Calendar.utc "done".toList ∧ ¬ PrintsItself Calendar.utc "100%".toList := by
  have hcal : ∃ time : UInt64, Calendar.utc.localtime time.toInt64 = none :=
    ⟨9223372036854775807, by decide +kernel⟩
  constructor
  · apply (printsItself_iff Calendar.utc hcal "done".toList).mpr
    decide
  · rw [printsItself_iff Calendar.utc hcal]
    decide

/-- A percent sign at the end of the pattern is taken as a directive without a name. -/
theorem percent_error : ¬ PrintsItself Calendar.utc "100%".toList := by
  intro h
  have herror : (around [] "100%".toList []).isError = true := by decide +kernel
  rw [h.noError [] []] at herror
  cases herror

end SimpleHttpServer.LogFormatter
