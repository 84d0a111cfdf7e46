import InfraModule.Json.Basic
import Mathlib.Data.List.Basic

namespace InfraModule.Json

def escapes : List (Char × Char) :=
  [('"', '"'), ('\\', '\\'), ('/', '/'), ('b', '\x08'), ('f', '\x0c'), ('n', '\n'), ('r', '\r'),
    ('t', '\t')]

def IsHexDigit (n : ℕ) (c : Char) : Prop :=
  "0123456789abcdef".toList[n]? = some c ∨ "0123456789ABCDEF".toList[n]? = some c

inductive UnitSpelling : ℕ → List Char → Prop
  | mk {w x y z : ℕ} {a b c d : Char} : IsHexDigit w a → IsHexDigit x b → IsHexDigit y c →
      IsHexDigit z d → UnitSpelling (((w * 16 + x) * 16 + y) * 16 + z) ['\\', 'u', a, b, c, d]

/-- The ways to write a character of a string. A character beyond the 16-bit ones is escaped as a
pair of units, each of which holds ten bits of it. -/
inductive CharSpelling : Char → List Char → Prop
  | plain {c : Char} : 32 ≤ c.toNat → c ≠ '"' → c ≠ '\\' → CharSpelling c [c]
  | letter {e c : Char} : (e, c) ∈ escapes → CharSpelling c ['\\', e]
  | unit {c : Char} {l : List Char} : UnitSpelling c.toNat l → CharSpelling c l
  | pair {c : Char} {high low : ℕ} {l l' : List Char} : high < 0x400 → low < 0x400 →
      c.toNat = 0x10000 + high * 0x400 + low → UnitSpelling (0xD800 + high) l →
      UnitSpelling (0xDC00 + low) l' → CharSpelling c (l ++ l')

inductive Spelling : List Char → List Char → Prop
  | nil : Spelling [] []
  | cons {c : Char} {l cs ls : List Char} : CharSpelling c l → Spelling cs ls →
      Spelling (c :: cs) (l ++ ls)

inductive Lexeme : Token → List Char → Prop
  | openArray : Lexeme .openArray ['[']
  | closeArray : Lexeme .closeArray [']']
  | openObject : Lexeme .openObject ['\x7b']
  | closeObject : Lexeme .closeObject ['\x7d']
  | comma : Lexeme .comma [',']
  | colon : Lexeme .colon [':']
  | null : Lexeme .null ['n', 'u', 'l', 'l']
  | yes : Lexeme (.bool true) ['t', 'r', 'u', 'e']
  | no : Lexeme (.bool false) ['f', 'a', 'l', 's', 'e']
  | string {text : String} {ls : List Char} : Spelling text.toList ls →
      Lexeme (.string (some text)) ('"' :: (ls ++ ['"']))

inductive TokensWritten : List Token → List Char → Prop
  | nil : TokensWritten [] []
  | blank {c : Char} {ts : List Token} {cs : List Char} : c ∈ [' ', '\t', '\n', '\r'] →
      TokensWritten ts cs → TokensWritten ts (c :: cs)
  | token {t : Token} {l : List Char} {ts : List Token} {cs : List Char} : Lexeme t l →
      TokensWritten ts cs → TokensWritten (t :: ts) (l ++ cs)

def separated : List (List Token) → List Token
  | [] => []
  | ts :: tss => ts ++ tss.flatMap (Token.comma :: ·)

mutual

def tokens : Json → List Token
  | .null => [.null]
  | .bool b => [.bool b]
  | .number digits => [.number digits]
  | .string text => [.string text]
  | .array items => .openArray :: (separated (itemTokens items) ++ [.closeArray])
  | .object members => .openObject :: (separated (memberTokens members) ++ [.closeObject])

def itemTokens : List Json → List (List Token)
  | [] => []
  | v :: vs => tokens v :: itemTokens vs

def memberTokens : List (Option String × Json) → List (List Token)
  | [] => []
  | (name, v) :: members => (.string name :: .colon :: tokens v) :: memberTokens members

end

/-- The texts that hold a value and nothing else. -/
def Written (v : Json) (text : String) : Prop := TokensWritten (tokens v) text.toList

theorem Spelling.of_plain {cs : List Char}
    (h : ∀ c ∈ cs, 32 ≤ c.toNat ∧ c ≠ '"' ∧ c ≠ '\\') : Spelling cs cs := by
  induction cs with
  | nil => exact .nil
  | cons c cs ih =>
    obtain ⟨hc, hcs⟩ := List.forall_mem_cons.mp h
    exact .cons (.plain hc.1 hc.2.1 hc.2.2) (ih hcs)

theorem hexDigit?_eq {n : ℕ} {c : Char} (h : IsHexDigit n c) : hexDigit? c = some n := by
  have hall : ∀ n < 16, ("0123456789abcdef".toList[n]?.all fun c ↦ hexDigit? c = some n) ∧
      "0123456789ABCDEF".toList[n]?.all fun c ↦ hexDigit? c = some n := by decide
  have hlt : n < 16 := by
    rcases h with h | h <;> exact (List.getElem?_eq_some_iff.mp h).1
  obtain ⟨hlower, hupper⟩ := hall n hlt
  rcases h with h | h
  · rw [h] at hlower
    simpa using hlower
  · rw [h] at hupper
    simpa using hupper

theorem pieces?_unit {u : ℕ} {l : List Char} (h : UnitSpelling u l) {ls rest : List Char}
    {ps : List Piece} (hls : pieces? ls = some (ps, rest)) :
    pieces? (l ++ ls) = some (.unit u :: ps, rest) := by
  obtain ⟨ha, hb, hc, hd⟩ := h
  simp [pieces?, hexUnit?, hexDigit?_eq ha, hexDigit?_eq hb, hexDigit?_eq hc, hexDigit?_eq hd, hls]

theorem pieces?_plain {c : Char} (hc : 32 ≤ c.toNat) (hquote : c ≠ '"') (hslash : c ≠ '\\')
    {ls rest : List Char} {ps : List Piece} (hls : pieces? ls = some (ps, rest)) :
    pieces? (c :: ls) = some (.char c :: ps, rest) := by
  rw [pieces?]
  · simp [hslash, hls, Nat.not_lt.mpr hc]
  all_goals simp_all

theorem pieces?_letter {e c : Char} (h : (e, c) ∈ escapes) {ls rest : List Char}
    {ps : List Piece} (hls : pieces? ls = some (ps, rest)) :
    pieces? ('\\' :: e :: ls) = some (.char c :: ps, rest) := by
  have hescape : escape? e = some c := by
    have hall : ∀ p ∈ escapes, escape? p.1 = some p.2 := by decide
    exact hall _ h
  have hne : e ≠ 'u' := by
    intro he
    rw [he] at hescape
    cases hescape
  rw [pieces?]
  · simp [hescape, hls]
  all_goals simp_all

theorem text?_unit {u : ℕ} (hhigh : isHighSurrogate u = false) (hlow : isLowSurrogate u = false)
    (ps : List Piece) : text? (.unit u :: ps) = (text? ps).map (Char.ofNat u :: ·) := by
  cases ps with
  | nil => simp [text?, hhigh, hlow]
  | cons p ps => cases p <;> simp [text?, hhigh, hlow]

theorem text?_pair {high low : ℕ} (hhigh : high < 0x400) (hlow : low < 0x400) (ps : List Piece) :
    text? (.unit (0xD800 + high) :: .unit (0xDC00 + low) :: ps) =
      (text? ps).map (Char.ofNat (0x10000 + high * 0x400 + low) :: ·) := by
  have h₁ : isHighSurrogate (0xD800 + high) := by
    simp [isHighSurrogate]
    omega
  have h₂ : isLowSurrogate (0xDC00 + low) := by
    simp [isLowSurrogate]
    omega
  simp only [text?, h₁, h₂, if_true, Nat.add_sub_cancel_left]

theorem not_surrogate (c : Char) :
    isHighSurrogate c.toNat = false ∧ isLowSurrogate c.toNat = false := by
  have hvalid : c.toNat < 0xd800 ∨ 0xdfff < c.toNat ∧ c.toNat < 0x110000 := c.valid
  simp only [isHighSurrogate, isLowSurrogate, Bool.and_eq_false_iff, decide_eq_false_iff_not]
  omega

theorem exists_pieces?_char {c : Char} {l : List Char} (h : CharSpelling c l)
    {cs ls rest : List Char} {ps : List Piece} (hls : pieces? ls = some (ps, rest))
    (hps : text? ps = some cs) :
    ∃ ps, pieces? (l ++ ls) = some (ps, rest) ∧ text? ps = some (c :: cs) := by
  cases h with
  | plain hc hquote hslash =>
    refine ⟨_, pieces?_plain hc hquote hslash hls, ?_⟩
    rw [text?, hps, Option.map_some]
  | letter he =>
    refine ⟨_, pieces?_letter he hls, ?_⟩
    rw [text?, hps, Option.map_some]
  | unit hu =>
    obtain ⟨hhigh, hlow⟩ := not_surrogate c
    refine ⟨_, pieces?_unit hu hls, ?_⟩
    rw [text?_unit hhigh hlow, hps, Option.map_some, Char.ofNat_toNat]
  | pair hhigh hlow hc hu hu' =>
    refine ⟨_, by rw [List.append_assoc]; exact pieces?_unit hu (pieces?_unit hu' hls), ?_⟩
    rw [text?_pair hhigh hlow, hps, Option.map_some, ← hc, Char.ofNat_toNat]

theorem exists_pieces? {cs ls : List Char} (h : Spelling cs ls) (rest : List Char) :
    ∃ ps, pieces? (ls ++ '"' :: rest) = some (ps, rest) ∧ text? ps = some cs := by
  induction h with
  | nil => exact ⟨[], rfl, rfl⟩
  | cons hc _ ih =>
    obtain ⟨ps, hls, hps⟩ := ih
    rw [List.append_assoc]
    exact exists_pieces?_char hc hls hps

theorem token?_eq {t : Token} {l : List Char} (h : Lexeme t l) (rest : List Char) :
    token? (l ++ rest) = some (t, rest) := by
  cases h with
  | string hs =>
    obtain ⟨ps, hls, hps⟩ := exists_pieces? hs rest
    rw [List.cons_append, List.append_assoc, token?]
    simp [hls, hps]
  | _ => rfl

theorem exists_head {t : Token} {l : List Char} (h : Lexeme t l) :
    ∃ c cs, l = c :: cs ∧ isBlank c = false := by
  cases h <;> exact ⟨_, _, rfl, by decide⟩

theorem tokensWithin?_eq {ts : List Token} {cs : List Char} (h : TokensWritten ts cs) {n : ℕ}
    (hn : cs.length ≤ n) : tokensWithin? n cs = some ts := by
  induction h generalizing n with
  | nil => cases n <;> rfl
  | blank hc _ ih =>
    cases n with
    | zero => simp at hn
    | succ n =>
      rw [tokensWithin?, if_pos (by simpa [isBlank, or_assoc] using hc)]
      exact ih (Nat.le_of_succ_le_succ hn)
  | @token t l ts cs hl _ ih =>
    obtain ⟨c, l, rfl, hblank⟩ := exists_head hl
    have htoken := token?_eq hl cs
    rw [List.cons_append] at hn htoken ⊢
    cases n with
    | zero => simp at hn
    | succ n =>
      rw [List.length_cons, List.length_append] at hn
      rw [tokensWithin?, if_neg (by simp [hblank]), htoken]
      simp [ih (show cs.length ≤ n by omega)]

theorem tokens?_eq {ts : List Token} {cs : List Char} (h : TokensWritten ts cs) :
    tokens? cs = some ts := tokensWithin?_eq h (Nat.le_refl _)

def ReadsBack (v : Json) : Prop :=
  ∀ stack, (tokens v).foldlM step ⟨stack, .value⟩ = some ⟨stack, .done v⟩

theorem foldlM_firstItem (v : Json) (stack : List Frame) :
    (tokens v).foldlM step ⟨stack, .firstItem⟩ = (tokens v).foldlM step ⟨stack, .value⟩ := by
  cases v <;> rfl

theorem foldlM_items {vs : List Json} (hvs : ∀ v ∈ vs, ReadsBack v) (items : List Json) (v : Json)
    (stack : List Frame) :
    ((itemTokens vs).flatMap (Token.comma :: ·) ++ [Token.closeArray]).foldlM step
        ⟨.array items :: stack, .done v⟩ =
      some ⟨stack, .done (.array ((v :: items).reverse ++ vs))⟩ := by
  induction vs generalizing items v with
  | nil => simp [itemTokens, step, proceed]
  | cons w vs ih =>
    rw [List.forall_mem_cons] at hvs
    have hcomma : step ⟨.array items :: stack, .done v⟩ .comma =
        some ⟨.array (v :: items) :: stack, .value⟩ := rfl
    simp only [itemTokens, List.flatMap_cons, List.cons_append, List.append_assoc]
    rw [List.foldlM_cons, hcomma, Option.bind_eq_bind, Option.bind_some, List.foldlM_append, hvs.1,
      Option.bind_eq_bind, Option.bind_some, ih hvs.2]
    simp

theorem readsBack_array {items : List Json} (h : ∀ v ∈ items, ReadsBack v) :
    ReadsBack (.array items) := by
  intro stack
  cases items with
  | nil => rfl
  | cons v vs =>
    rw [List.forall_mem_cons] at h
    have hopen : step ⟨stack, .value⟩ .openArray = some ⟨.array [] :: stack, .firstItem⟩ := rfl
    simp only [tokens, itemTokens, separated, List.append_assoc]
    rw [List.foldlM_cons, hopen, Option.bind_eq_bind, Option.bind_some, List.foldlM_append,
      foldlM_firstItem, h.1, Option.bind_eq_bind, Option.bind_some, foldlM_items h.2]
    rfl

theorem foldlM_members {ms : List (Option String × Json)} (hms : ∀ m ∈ ms, ReadsBack m.2)
    (members : List (Option String × Json)) (name : Option String) (v : Json)
    (stack : List Frame) :
    ((memberTokens ms).flatMap (Token.comma :: ·) ++ [Token.closeObject]).foldlM step
        ⟨.object members name :: stack, .done v⟩ =
      some ⟨stack, .done (.object (((name, v) :: members).reverse ++ ms))⟩ := by
  induction ms generalizing members name v with
  | nil => simp [memberTokens, step, proceed]
  | cons m ms ih =>
    rw [List.forall_mem_cons] at hms
    obtain ⟨next, w⟩ := m
    have hnext (ts : List Token) : (.comma :: .string next :: .colon :: ts).foldlM step
          ⟨.object members name :: stack, .done v⟩ =
        ts.foldlM step ⟨.object ((name, v) :: members) next :: stack, .value⟩ := rfl
    simp only [memberTokens, List.flatMap_cons, List.cons_append, List.append_assoc]
    rw [hnext, List.foldlM_append, hms.1, Option.bind_eq_bind, Option.bind_some, ih hms.2]
    simp

theorem readsBack_object {members : List (Option String × Json)}
    (h : ∀ m ∈ members, ReadsBack m.2) : ReadsBack (.object members) := by
  intro stack
  cases members with
  | nil => rfl
  | cons m ms =>
    rw [List.forall_mem_cons] at h
    obtain ⟨name, v⟩ := m
    have hopen (ts : List Token) : (.openObject :: .string name :: .colon :: ts).foldlM step
          ⟨stack, .value⟩ = ts.foldlM step ⟨.object [] name :: stack, .value⟩ := rfl
    simp only [tokens, memberTokens, separated, List.cons_append, List.append_assoc]
    rw [hopen, List.foldlM_append, h.1, Option.bind_eq_bind, Option.bind_some, foldlM_members h.2]
    rfl

mutual

/-- The tokens of a value are read as the value, whatever is open around it. -/
theorem readsBack : ∀ v : Json, ReadsBack v
  | .null | .bool _ | .number _ | .string _ => fun _ ↦ rfl
  | .array items => readsBack_array (readsBack_items items)
  | .object members => readsBack_object (readsBack_members members)

theorem readsBack_items : ∀ vs : List Json, ∀ v ∈ vs, ReadsBack v
  | [] => by simp
  | v :: vs => List.forall_mem_cons.mpr ⟨readsBack v, readsBack_items vs⟩

theorem readsBack_members : ∀ ms : List (Option String × Json), ∀ m ∈ ms, ReadsBack m.2
  | [] => by simp
  | (_, v) :: ms => List.forall_mem_cons.mpr ⟨readsBack v, readsBack_members ms⟩

end

theorem parse?_eq {v : Json} {text : String} (h : v.Written text) : parse? text = some v := by
  rw [parse?, tokens?_eq h, Option.bind_some, ofTokens?, readsBack v []]
  rfl

section Writable

/-- A value all of whose tokens can be written. -/
def Writable (v : Json) : Prop := ∀ t ∈ tokens v, ∃ l, Lexeme t l

theorem exists_isHexDigit {n : ℕ} (hn : n < 16) : ∃ c, IsHexDigit n c := by
  have hlength : "0123456789abcdef".toList.length = 16 := by decide
  exact ⟨_, .inl (List.getElem?_eq_getElem (hlength.symm ▸ hn))⟩

theorem exists_charSpelling (c : Char) : ∃ l, CharSpelling c l := by
  by_cases hplain : 32 ≤ c.toNat ∧ c ≠ '"' ∧ c ≠ '\\'
  · exact ⟨[c], .plain hplain.1 hplain.2.1 hplain.2.2⟩
  · have hlt : c.toNat < 256 := by
      by_contra hge
      refine hplain ⟨by omega, ?_, ?_⟩ <;>
        · rintro rfl
          exact hge (by decide)
    obtain ⟨zero, hzero⟩ := exists_isHexDigit (Nat.zero_lt_succ 15)
    obtain ⟨y, hy⟩ := exists_isHexDigit (show c.toNat / 16 < 16 by omega)
    obtain ⟨z, hz⟩ := exists_isHexDigit (show c.toNat % 16 < 16 by omega)
    have hunit := UnitSpelling.mk hzero hzero hy hz
    rw [show ((0 * 16 + 0) * 16 + c.toNat / 16) * 16 + c.toNat % 16 = c.toNat by omega] at hunit
    exact ⟨_, .unit hunit⟩

theorem exists_spelling (cs : List Char) : ∃ ls, Spelling cs ls := by
  induction cs with
  | nil => exact ⟨[], .nil⟩
  | cons c cs ih =>
    obtain ⟨l, hl⟩ := exists_charSpelling c
    obtain ⟨ls, hls⟩ := ih
    exact ⟨l ++ ls, .cons hl hls⟩

theorem exists_lexeme_string (text : String) : ∃ l, Lexeme (.string (some text)) l := by
  obtain ⟨ls, hls⟩ := exists_spelling text.toList
  exact ⟨_, .string hls⟩

theorem Writable.exists_written {v : Json} (h : v.Writable) : ∃ text, v.Written text := by
  have hwritten {ts : List Token} (h : ∀ t ∈ ts, ∃ l, Lexeme t l) : ∃ cs, TokensWritten ts cs := by
    induction ts with
    | nil => exact ⟨[], .nil⟩
    | cons t ts ih =>
      obtain ⟨⟨l, hl⟩, hts⟩ := List.forall_mem_cons.mp h
      obtain ⟨cs, hcs⟩ := ih hts
      exact ⟨l ++ cs, .token hl hcs⟩
  obtain ⟨cs, hcs⟩ := hwritten h
  refine ⟨String.ofList cs, ?_⟩
  rwa [Written, String.toList_ofList]

theorem writable_null : Json.null.Writable := List.forall_mem_singleton.mpr ⟨_, .null⟩

theorem writable_bool (b : Bool) : (Json.bool b).Writable := by
  cases b
  · exact List.forall_mem_singleton.mpr ⟨_, .no⟩
  · exact List.forall_mem_singleton.mpr ⟨_, .yes⟩

theorem writable_string (text : String) : (Json.string (some text)).Writable :=
  List.forall_mem_singleton.mpr (exists_lexeme_string text)

theorem forall_mem_separated {P : Token → Prop} (hcomma : P .comma) {tss : List (List Token)}
    (h : ∀ ts ∈ tss, ∀ t ∈ ts, P t) : ∀ t ∈ separated tss, P t := by
  cases tss with
  | nil => exact fun t ht ↦ nomatch ht
  | cons ts tss =>
    obtain ⟨hts, htss⟩ := List.forall_mem_cons.mp h
    refine List.forall_mem_append.mpr ⟨hts, fun t ht ↦ ?_⟩
    obtain ⟨us, hus, ht⟩ := List.mem_flatMap.mp ht
    exact List.forall_mem_cons.mpr ⟨hcomma, htss us hus⟩ t ht

theorem writable_array {vs : List Json} (h : ∀ v ∈ vs, v.Writable) : (Json.array vs).Writable := by
  have hitems : ∀ ts ∈ itemTokens vs, ∀ t ∈ ts, ∃ l, Lexeme t l := by
    induction vs with
    | nil => exact fun ts hts ↦ nomatch hts
    | cons v vs ih =>
      obtain ⟨hv, hvs⟩ := List.forall_mem_cons.mp h
      exact List.forall_mem_cons.mpr ⟨hv, ih hvs⟩
  exact List.forall_mem_cons.mpr ⟨⟨_, .openArray⟩, List.forall_mem_append.mpr
    ⟨forall_mem_separated ⟨_, .comma⟩ hitems, List.forall_mem_singleton.mpr ⟨_, .closeArray⟩⟩⟩

theorem writable_object {members : List (String × Json)} (h : ∀ m ∈ members, m.2.Writable) :
    (Json.object (members.map fun m ↦ (some m.1, m.2))).Writable := by
  have hmembers : ∀ ts ∈ memberTokens (members.map fun m ↦ (some m.1, m.2)),
      ∀ t ∈ ts, ∃ l, Lexeme t l := by
    induction members with
    | nil => exact fun ts hts ↦ nomatch hts
    | cons m members ih =>
      obtain ⟨hm, hmembers⟩ := List.forall_mem_cons.mp h
      refine List.forall_mem_cons.mpr ⟨?_, ih hmembers⟩
      exact List.forall_mem_cons.mpr
        ⟨exists_lexeme_string m.1, List.forall_mem_cons.mpr ⟨⟨_, .colon⟩, hm⟩⟩
  exact List.forall_mem_cons.mpr ⟨⟨_, .openObject⟩, List.forall_mem_append.mpr
    ⟨forall_mem_separated ⟨_, .comma⟩ hmembers, List.forall_mem_singleton.mpr ⟨_, .closeObject⟩⟩⟩

end Writable

end InfraModule.Json
