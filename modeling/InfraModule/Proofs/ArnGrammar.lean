import InfraModule.Arn
import Mathlib.Data.List.Basic
import Mathlib.Data.String.Basic

namespace InfraModule.Arn

open Vocabulary

variable {parts parts' : List (List Char)} {part rest rest' cs : List Char} {n : Nat}

/-- The parts of a resource name after `arn:`. Each may be empty. -/
@[ext]
structure Parts where
  partition : String
  service : String
  region : String
  account : String
  resource : String
  colonless : ∀ part ∈ [partition, service, region, account], ':' ∉ part.toList

def Parts.text (p : Parts) : String :=
  "arn:" ++ p.partition ++ ":" ++ p.service ++ ":" ++ p.region ++ ":" ++ p.account ++ ":" ++
    p.resource

/-- What a text falls into at its first `n` colons. The last piece keeps the colons that remain. -/
def divide : Nat → List Char → List (List Char)
  | 0, cs => [cs]
  | _ + 1, [] => [[]]
  | n + 1, c :: cs =>
    if c = ':' then [] :: divide n cs else (divide (n + 1) cs).modifyHead (c :: ·)

def chain (parts : List (List Char)) (rest : List Char) : List Char :=
  parts.foldr (fun part cs ↦ part ++ ':' :: cs) rest

@[simp]
theorem chain_nil (rest : List Char) : chain [] rest = rest := rfl

@[simp]
theorem chain_cons (part : List Char) (parts : List (List Char)) (rest : List Char) :
    chain (part :: parts) rest = part ++ ':' :: chain parts rest := rfl

theorem divide_append_colon (h : ':' ∉ part) (n : Nat) (rest : List Char) :
    divide (n + 1) (part ++ ':' :: rest) = part :: divide n rest := by
  induction part with
  | nil => simp [divide]
  | cons c part ih =>
    obtain ⟨hc, hpart⟩ := not_or.mp (List.mem_cons.not.mp h)
    rw [List.cons_append, divide, if_neg (Ne.symm hc), ih hpart, List.modifyHead_cons]

theorem divide_chain (h : ∀ part ∈ parts, ':' ∉ part) (rest : List Char) :
    divide parts.length (chain parts rest) = parts ++ [rest] := by
  induction parts with
  | nil => simp [divide]
  | cons part parts ih =>
    obtain ⟨hpart, hparts⟩ := List.forall_mem_cons.mp h
    rw [List.length_cons, chain_cons, divide_append_colon hpart, ih hparts, List.cons_append]

theorem chain_inj (h : ∀ part ∈ parts, ':' ∉ part) (h' : ∀ part ∈ parts', ':' ∉ part)
    (hlen : parts.length = parts'.length) (heq : chain parts rest = chain parts' rest') :
    parts = parts' ∧ rest = rest' := by
  have hdivide : parts ++ [rest] = parts' ++ [rest'] := by
    rw [← divide_chain h, ← divide_chain h', heq, hlen]
  obtain ⟨hparts, hrest⟩ := List.append_inj hdivide hlen
  exact ⟨hparts, List.singleton_inj.mp hrest⟩

theorem length_divide (n : Nat) (cs : List Char) :
    (divide n cs).length = min n (cs.count ':') + 1 := by
  fun_induction divide n cs with
  | case1 cs => simp
  | case2 n => simp
  | case3 n cs ih => simp [ih]
  | case4 n c cs hc ih => rw [List.length_modifyHead, ih, List.count_cons_of_ne hc]

/-- A text holds `n` colons to be divided at exactly when it is the chain of `n` parts. -/
theorem length_divide_eq_iff : (divide n cs).length = n + 1 ↔
    ∃ parts rest, parts.length = n ∧ (∀ part ∈ parts, ':' ∉ part) ∧ chain parts rest = cs := by
  constructor
  · intro h
    fun_induction divide n cs with
    | case1 cs => exact ⟨[], cs, rfl, by simp, rfl⟩
    | case2 n => simp at h
    | case3 n cs ih =>
      obtain ⟨parts, rest, hlen, hparts, rfl⟩ := ih (Nat.succ.inj h)
      exact ⟨[] :: parts, rest, by simp [hlen], by simpa using hparts, rfl⟩
    | case4 n c cs hc ih =>
      rw [List.length_modifyHead] at h
      obtain ⟨_ | ⟨part, parts⟩, rest, hlen, hparts, rfl⟩ := ih h
      · simp at hlen
      obtain ⟨hpart, hparts⟩ := List.forall_mem_cons.mp hparts
      refine ⟨(c :: part) :: parts, rest, hlen, List.forall_mem_cons.mpr ⟨?_, hparts⟩, rfl⟩
      exact List.mem_cons.not.mpr (not_or.mpr ⟨Ne.symm hc, hpart⟩)
  · rintro ⟨parts, rest, rfl, hparts, rfl⟩
    rw [divide_chain hparts, List.length_append, List.length_singleton]

theorem beginsWith_iff {text start : String} :
    beginsWith text start = true ↔ ∃ rest, text.toList = start.toList ++ rest := by
  rw [beginsWith, List.isPrefixOf_iff_prefix]
  exact exists_congr fun _ ↦ eq_comm

theorem isArn_iff_divide {text : String} :
    isArn text = true ↔ beginsWith text "arn:" = true ∧ (divide 5 text.toList).length = 6 := by
  rw [isArn, Bool.and_eq_true, decide_eq_true_iff, length_divide]
  refine and_congr_right fun _ ↦ ?_
  omega

theorem isArn_iff_chain {text : String} : isArn text = true ↔
    ∃ parts rest, parts.length = 4 ∧ (∀ part ∈ parts, ':' ∉ part) ∧
      text.toList = "arn:".toList ++ chain parts rest := by
  have hdivided {cs : List Char} (h : text.toList = "arn:".toList ++ cs) :
      (divide 5 text.toList).length = 6 ↔ (divide 4 cs).length = 5 := by
    have harn : ':' ∉ "arn".toList := by decide
    have hfirst : divide 5 text.toList = "arn".toList :: divide 4 cs :=
      h ▸ divide_append_colon harn 4 cs
    rw [hfirst, List.length_cons, Nat.add_left_inj]
  rw [isArn_iff_divide, beginsWith_iff]
  constructor
  · rintro ⟨⟨cs, htext⟩, hsix⟩
    obtain ⟨parts, rest, hlen, hparts, rfl⟩ := length_divide_eq_iff.mp ((hdivided htext).mp hsix)
    exact ⟨parts, rest, hlen, hparts, htext⟩
  · rintro ⟨parts, rest, hlen, hparts, htext⟩
    have hfive := length_divide_eq_iff.mpr ⟨parts, rest, hlen, hparts, rfl⟩
    exact ⟨⟨_, htext⟩, (hdivided htext).mpr hfive⟩

namespace Parts

def leading (p : Parts) : List (List Char) :=
  [p.partition, p.service, p.region, p.account].map String.toList

theorem notMem_leading (p : Parts) : ∀ part ∈ p.leading, ':' ∉ part :=
  List.forall_mem_map.mpr p.colonless

theorem toList_text (p : Parts) :
    p.text.toList = "arn:".toList ++ chain p.leading p.resource.toList := by
  delta text
  simp [leading]

theorem text_injective : Function.Injective text := by
  intro p q h
  have hchain : chain p.leading p.resource.toList = chain q.leading q.resource.toList := by
    rw [← List.append_right_inj "arn:".toList, ← toList_text, ← toList_text, h]
  obtain ⟨hleading, hresource⟩ := chain_inj p.notMem_leading q.notMem_leading rfl hchain
  have hparts := List.map_injective_iff.mpr (fun _ _ ↦ String.toList_injective) hleading
  simp only [List.cons.injEq, and_true] at hparts
  obtain ⟨hpartition, hservice, hregion, haccount⟩ := hparts
  exact Parts.ext hpartition hservice hregion haccount (String.toList_injective hresource)

theorem exists_text_eq {text : String} (hlen : parts.length = 4)
    (hparts : ∀ part ∈ parts, ':' ∉ part)
    (htext : text.toList = "arn:".toList ++ chain parts rest) : ∃ p : Parts, p.text = text := by
  match parts, hlen with
  | [partition, service, region, account], _ =>
    let p : Parts := ⟨.ofList partition, .ofList service, .ofList region, .ofList account,
      .ofList rest, by simpa using hparts⟩
    refine ⟨p, String.toList_injective ?_⟩
    rw [toList_text, htext]
    simp only [p, leading, List.map_cons, List.map_nil, String.toList_ofList]

end Parts

/-- The texts that pass for resource names are those that the grammar yields, each of them from
its own parts alone. -/
theorem isArn_exact (text : String) :
    (isArn text = true ↔ ∃ p : Parts, p.text = text) ∧
      ∀ p q : Parts, p.text = text → q.text = text → p = q := by
  refine ⟨isArn_iff_chain.trans ⟨?_, ?_⟩, fun p q hp hq ↦ Parts.text_injective (hp.trans hq.symm)⟩
  · rintro ⟨parts, rest, hlen, hparts, htext⟩
    exact Parts.exists_text_eq hlen hparts htext
  · rintro ⟨p, rfl⟩
    exact ⟨p.leading, p.resource.toList, rfl, p.notMem_leading, p.toList_text⟩

def roleParts : Parts :=
  ⟨"aws", "iam", "", "123456789012", "role/path/with:colon", by decide⟩

theorem isArn_exact_role :
    roleParts.text = "arn:aws:iam::123456789012:role/path/with:colon" ∧
      isArn "arn:aws:iam::123456789012:role/path/with:colon" = true ∧
      ∀ p : Parts, p.text = "arn:aws:iam::123456789012:role/path/with:colon" → p = roleParts := by
  obtain ⟨hiff, hunique⟩ := isArn_exact "arn:aws:iam::123456789012:role/path/with:colon"
  have hrole : roleParts.text = "arn:aws:iam::123456789012:role/path/with:colon" := by decide
  exact ⟨hrole, hiff.mpr ⟨roleParts, hrole⟩, fun p hp ↦ hunique p roleParts hp hrole⟩

end InfraModule.Arn
