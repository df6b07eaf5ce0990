import GlipOsd.Options.ParseOptions

/-! # Options that are written down and read again

An option is written as `name=value`, or as `name` if it has no value, and a list of options with commas between and
around them. `parse_options` gets the list back as long as an `int` can count it.
-/

namespace GlipOsd.Options
open Tokens
set_option autoImplicit false

/-- An option that can be written in a string. -/
structure TextOption where
  name : List UInt8
  value : Option (List UInt8)
  name_plain : ∀ c ∈ name, ¬ isComma c ∧ ¬ isEquals c
  value_plain : ∀ v ∈ value, ∀ c ∈ v, ¬ isComma c
  named : value = none → name ≠ []

namespace TextOption

def format (o : TextOption) : List UInt8 :=
  match o.value with
  | some value => o.name ++ 0x3d :: value
  | none => o.name

/-- The entry of the list that `parse_options` returns. -/
def entry (o : TextOption) : GlipOption := ⟨some o.name, o.value⟩

theorem format_ne_nil (o : TextOption) : o.format ≠ [] := by
  unfold format
  split
  · exact List.append_ne_nil_of_right_ne_nil _ (List.cons_ne_nil _ _)
  · next h => exact o.named h

theorem format_plain (o : TextOption) : ∀ c ∈ o.format, ¬ isComma c := by
  intro c hc
  unfold format at hc
  split at hc
  · next value h =>
    rcases List.mem_append.mp hc with hname | hrest
    · exact (o.name_plain c hname).1
    · rcases List.mem_cons.mp hrest with rfl | hvalue
      · decide
      · exact o.value_plain value h c hvalue
  · exact (o.name_plain c hc).1

/-- The first `=` of an item is the one behind the name. -/
theorem optionOf_format (o : TextOption) : optionOf o.format = o.entry := by
  have hno : ∀ c ∈ o.name, isEquals c = false := fun c hc => by simpa using (o.name_plain c hc).2
  have hname : o.name.findIdx? isEquals = none := List.findIdx?_eq_none_iff.mpr hno
  unfold optionOf format entry
  cases hvalue : o.value with
  | none => rw [hname]
  | some value =>
    have hsep : (o.name ++ 0x3d :: value).findIdx? isEquals = some o.name.length := by
      have heq : isEquals 0x3d = true := rfl
      rw [List.findIdx?_append, hname]
      simp [List.findIdx?_cons, heq]
    have hdrop : (o.name ++ 0x3d :: value).drop (o.name.length + 1) = value := by
      rw [List.drop_append]
      simp
    rw [hsep]
    dsimp only [strndup]
    rw [List.take_left, hdrop, List.take_of_length_le]
    rw [List.length_append, List.length_cons]
    omega

end TextOption

/-- A string with the options `opts`. -/
def Spells (opts : List TextOption) (str : List UInt8) : Prop := Written isComma (opts.map TextOption.format) str

theorem Spells.entries {opts : List TextOption} {str : List UInt8} (h : Spells opts str) :
    (items isComma str).map optionOf = opts.map TextOption.entry := by
  rw [items_of_written h, List.map_map]
  congr 1
  funext o
  exact o.optionOf_format

/-- **Option strings are read as they were written.** As long as the options can be counted in an `int`, all of them
come back with their names and values and in their order, whatever commas there are; a string without items has none. -/
theorem parses_back_iff {opts : List TextOption} {str : List UInt8} (h : Spells opts str) :
    (∃ p, parseOptions str = some p ∧ p.numOptions = opts.length ∧ p.options.1 = opts.map TextOption.entry) ↔
      opts.length ≤ intMax := by
  have hlength : (items isComma str).length = opts.length := by
    rw [items_of_written h, List.length_map]
  constructor
  · rintro ⟨p, hp, -⟩
    rw [← hlength]
    exact (parseOptions_isSome_iff str).mp (hp ▸ rfl)
  · intro hle
    obtain ⟨p, hp, hnum, hoptions⟩ := parseOptions_eq (hlength.trans_le hle)
    exact ⟨p, hp, hnum.trans hlength, hoptions.trans h.entries⟩

/-- The option `a` without a value. -/
def optionA : TextOption where
  name := [0x61]
  value := none
  name_plain := by simp [isComma, isEquals]
  value_plain := by simp
  named := fun _ => List.cons_ne_nil _ _

/-- The option `b` with the value `=`. -/
def optionB : TextOption where
  name := [0x62]
  value := some [0x3d]
  name_plain := by simp [isComma, isEquals]
  value_plain := by simp [isComma]
  named := fun h => by cases h

theorem spells_cons (o : TextOption) {opts : List TextOption} {str : List UInt8} (h : Spells opts str) :
    Spells (o :: opts) (o.format ++ 0x2c :: str) := .item o.format_ne_nil o.format_plain rfl h

/-- The string ",a,b==". -/
theorem two_parse_back :
    ∃ p, parseOptions [0x2c, 0x61, 0x2c, 0x62, 0x3d, 0x3d] = some p ∧ p.numOptions = 2 ∧
      p.options.1 = [⟨some [0x61], none⟩, ⟨some [0x62], some [0x3d]⟩] := by
  have hb : Spells [optionB] optionB.format := .last optionB.format_ne_nil optionB.format_plain
  have hstr : Spells [optionA, optionB] [0x2c, 0x61, 0x2c, 0x62, 0x3d, 0x3d] := .sep rfl (spells_cons optionA hb)
  exact (parses_back_iff hstr).mpr (by decide)

/-- `a,` as many times as an `int` cannot count. -/
def tooMany : List UInt8 := (List.replicate (intMax + 1) (optionA.format ++ [0x2c])).flatten

theorem spells_replicate (o : TextOption) (n : ℕ) :
    Spells (List.replicate n o) (List.replicate n (o.format ++ [0x2c])).flatten := by
  induction n with
  | zero => exact .nil
  | succ n ih =>
    rw [List.replicate_succ, List.replicate_succ, List.flatten_cons, List.append_assoc]
    exact spells_cons o ih

theorem tooMany_not_parsed :
    Spells (List.replicate (intMax + 1) optionA) tooMany ∧
      ¬ ∃ p, parseOptions tooMany = some p ∧ p.numOptions = intMax + 1 ∧
        p.options.1 = (List.replicate (intMax + 1) optionA).map TextOption.entry := by
  have hspells := spells_replicate optionA (intMax + 1)
  refine ⟨hspells, ?_⟩
  rintro ⟨p, hp, -⟩
  have hle := (parseOptions_isSome_iff tooMany).mp (hp ▸ rfl)
  have hlength : (items isComma tooMany).length = intMax + 1 := by
    rw [tooMany, items_of_written hspells, List.length_map, List.length_replicate]
  omega

end GlipOsd.Options
