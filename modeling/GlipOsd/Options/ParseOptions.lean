import GlipOsd.Foundations.Tokens
import GlipOsd.Options.Getters

/-! # Option strings

`parse_options` of the tools: the items of a string between commas are options `name=value`. It counts the items in a
copy first and goes through them in the string then. An option without `=` has no value, and the getters for numbers
read the value all the same.

The allocations are taken to succeed.
-/

namespace GlipOsd.Options
open Tokens
set_option autoImplicit false

def isComma (c : UInt8) : Bool := c == 0x2c

def isEquals (c : UInt8) : Bool := c == 0x3d

/-- `strtok` with ",", from where the call before has ended. -/
def strtok (s : List UInt8) : Option (List UInt8 × List UInt8) := next isComma s

def strndup (s : List UInt8) (n : ℕ) : List UInt8 := s.take n

def intMax : ℕ := 2 ^ 31 - 1

/-- The number of items; it is counted in an `int`. -/
def countOptions (str : List UInt8) : ℕ :=
  match h : strtok str with
  | none => 0
  | some (_, rest) => countOptions rest + 1
termination_by str.length
decreasing_by exact length_of_next h

/-- The entry for an item. -/
def optionOf (opt : List UInt8) : GlipOption :=
  match opt.findIdx? isEquals with
  | some sep => ⟨some (strndup opt sep), some (strndup (opt.drop (sep + 1)) (opt.length - sep))⟩
  | none => ⟨some opt, none⟩

/-- The block of `calloc`. -/
abbrev Optvec (count : ℕ) := { optvec : List GlipOption // optvec.length = count }

def calloc (count : ℕ) : Optvec count := ⟨List.replicate count ⟨none, none⟩, List.length_replicate⟩

def Optvec.set {count : ℕ} (optvec : Optvec count) (i : ℕ) (o : GlipOption) : Optvec count :=
  ⟨optvec.1.set i o, by rw [List.length_set, optvec.2]⟩

/-- The second loop, with the item `opt` in hand; `none` behind the end of the block. -/
def fillOptions {count : ℕ} (optvec : Optvec count) (i : ℕ) (opt rest : List UInt8) : Option (Optvec count) :=
  if i < count then
    match h : strtok rest with
    | none => some (optvec.set i (optionOf opt))
    | some (opt', rest') => fillOptions (optvec.set i (optionOf opt)) (i + 1) opt' rest'
  else none
termination_by rest.length
decreasing_by exact length_of_next h

structure Parsed where
  numOptions : ℕ
  options : Optvec numOptions

/-- `none` when the count overflows or a null pointer is used. Without items, `*options` is not set. -/
def parseOptions (str : List UInt8) : Option Parsed :=
  let count := countOptions str
  if intMax < count then none
  else if count = 0 then some ⟨0, calloc 0⟩
  else
    match strtok str with
    | none => none
    | some (opt, rest) => (fillOptions (calloc count) 0 opt rest).map fun optvec => ⟨count, optvec⟩

/-- What `glip_new` stores. -/
def Parsed.ctx (p : Parsed) : GlipCtx where
  backendOptions := p.options.1
  numBackendOptions := UInt32.ofNat p.numOptions
  inBounds := by
    rw [p.options.2, UInt32.toNat_ofNat']
    exact Nat.mod_le _ _

/-! ## The entries are the items -/

theorem countOptions_eq (str : List UInt8) : countOptions str = (items isComma str).length := by
  fun_induction countOptions str with
  | case1 str h => rw [items_of_none isComma h, List.length_nil]
  | case2 str opt rest h ih => rw [items_of_some isComma h, List.length_cons, ih]

theorem take_set {count i : ℕ} (optvec : Optvec count) (hi : i < count) (o : GlipOption) :
    (optvec.set i o).1.take (i + 1) = optvec.1.take i ++ [o] := by
  have hlt : i < optvec.1.length := optvec.2.symm ▸ hi
  show (optvec.1.set i o).take (i + 1) = _
  rw [List.set_eq_take_append_cons_drop, if_pos hlt, List.take_append, List.take_take, List.length_take_of_le hlt.le]
  simp

theorem fillOptions_eq {count : ℕ} (optvec : Optvec count) (i : ℕ) (opt rest : List UInt8)
    (h : i + 1 + (items isComma rest).length = count) :
    (fillOptions optvec i opt rest).map Subtype.val =
      some (optvec.1.take i ++ (opt :: items isComma rest).map optionOf) := by
  fun_induction fillOptions optvec i opt rest with
  | case1 optvec i opt rest hi hnext =>
    rw [items_of_none isComma hnext] at h ⊢
    have hall : (optvec.set i (optionOf opt)).1.take (i + 1) = (optvec.set i (optionOf opt)).1 := by
      rw [List.take_of_length_le]
      rw [(optvec.set i (optionOf opt)).2, ← h]
      exact le_rfl
    rw [Option.map_some, ← hall, take_set optvec hi]
    rfl
  | case2 optvec i opt rest hi opt' rest' hnext ih =>
    rw [items_of_some isComma hnext] at h ⊢
    rw [List.length_cons] at h
    rw [ih (by omega), take_set optvec hi, List.append_assoc]
    rfl
  | case3 optvec i opt rest hi => omega

/-- Every item has its entry, unless there are too many to be counted. -/
theorem parseOptions_eq {str : List UInt8} (h : (items isComma str).length ≤ intMax) :
    ∃ p, parseOptions str = some p ∧ p.numOptions = (items isComma str).length ∧
      p.options.1 = (items isComma str).map optionOf := by
  have hcount := countOptions_eq str
  unfold parseOptions
  dsimp only
  generalize countOptions str = count at hcount ⊢
  rw [if_neg (by omega)]
  cases hnext : strtok str with
  | none =>
    rw [items_of_none isComma hnext, List.length_nil] at hcount
    rw [if_pos hcount, items_of_none isComma hnext]
    exact ⟨_, rfl, rfl, rfl⟩
  | some r =>
    obtain ⟨opt, rest⟩ := r
    rw [items_of_some isComma hnext, List.length_cons] at hcount
    obtain ⟨optvec, hfill, hval⟩ := Option.map_eq_some_iff.mp (fillOptions_eq (calloc count) 0 opt rest (by omega))
    rw [if_neg (by omega), items_of_some isComma hnext]
    exact ⟨⟨count, optvec⟩, congrArg (Option.map _) hfill, hcount, hval⟩

theorem parseOptions_isSome_iff (str : List UInt8) :
    (parseOptions str).isSome ↔ (items isComma str).length ≤ intMax := by
  constructor
  · intro h
    by_contra hlt
    simp [parseOptions, countOptions_eq, Nat.lt_of_not_le hlt] at h
  · intro h
    obtain ⟨p, hp, -⟩ := parseOptions_eq h
    rw [hp]
    rfl

/-! ## Asking for a key -/

/-- The name of an item, up to the first `=`. -/
def itemName (opt : List UInt8) : List UInt8 := opt.takeWhile fun c => !isEquals c

theorem optionOf_name (opt : List UInt8) : (optionOf opt).name = some (itemName opt) := by
  unfold optionOf itemName
  split
  · next sep h =>
    obtain ⟨-, rfl⟩ := List.findIdx?_eq_some_iff_findIdx_eq.mp h
    rw [List.takeWhile_eq_take_findIdx_not]
    simp [strndup]
  · next h =>
    have hall : opt.takeWhile (fun c => !isEquals c) = opt := by
      rw [List.takeWhile_eq_self_iff]
      simpa using List.findIdx?_eq_none_iff.mp h
    rw [hall]

theorem optionOf_value_isSome (opt : List UInt8) : (optionOf opt).value.isSome ↔ 0x3d ∈ opt := by
  unfold optionOf
  split
  · next sep h =>
    obtain ⟨hlt, rfl⟩ := List.findIdx?_eq_some_iff_findIdx_eq.mp h
    refine iff_of_true rfl ?_
    obtain ⟨c, hc, heq⟩ := List.findIdx_lt_length.mp hlt
    obtain rfl : c = 0x3d := by simpa [isEquals] using heq
    exact hc
  · next h =>
    refine iff_of_false Bool.false_ne_true fun hmem => ?_
    have hno := List.findIdx?_eq_none_iff.mp h 0x3d hmem
    cases hno

/-- The first entry with the key. -/
def firstEntry (key : List UInt8) (options : List GlipOption) : Option GlipOption :=
  options.find? fun o => o.name == some key

/-- A getter gives an error, or what it reads in the value of the first entry. -/
def Answers {α : Type} (entry : Option GlipOption) (read : List UInt8 → Except ℤ α)
    (outcome : Option (Except ℤ α)) : Prop :=
  ∃ r, outcome = some r ∧ ∀ a, r = .ok a → ∃ o value, entry = some o ∧ o.value = some value ∧ read value = .ok a

/-- No getter uses a value that is missing. -/
structure SafeToQuery (setsEinval : Bool) (p : Parsed) (key : List UInt8) : Prop where
  uint32 : Answers (firstEntry key p.options.1) (numberOf setsEinval) (glipOptionGetUint32 setsEinval p.ctx key)
  uint16 : Answers (firstEntry key p.options.1)
    (fun value => (numberOf setsEinval value).map fun tmp => (limit 0xffff tmp).toUInt16)
    (glipOptionGetUint16 setsEinval p.ctx key)
  uint8 : Answers (firstEntry key p.options.1)
    (fun value => (numberOf setsEinval value).map fun tmp => (limit 0xff tmp).toUInt8)
    (glipOptionGetUint8 setsEinval p.ctx key)
  char : Answers (firstEntry key p.options.1) (fun value => .ok (some value)) (glipOptionGetChar p.ctx key)

theorem findOption_eq {key : List UInt8} {options : List GlipOption} (h : ∀ o ∈ options, o.name.isSome) :
    findOption key options = some (firstEntry key options) := by
  induction options with
  | nil => rfl
  | cons o os ih =>
    rw [List.forall_mem_cons] at h
    obtain ⟨name, hname⟩ := Option.isSome_iff_exists.mp h.1
    rw [findOption, firstEntry, List.find?_cons, hname]
    by_cases hkey : name = key
    · simp [hkey]
    · have hne : (name == key) = false := beq_false_of_ne hkey
      simp [hkey, hne, ih h.2, firstEntry]

theorem firstEntry_map (key : List UInt8) (opts : List (List UInt8)) :
    firstEntry key (opts.map optionOf) = (opts.find? fun opt => itemName opt == key).map optionOf := by
  rw [firstEntry, List.find?_map]
  have hname : ((fun o : GlipOption => o.name == some key) ∘ optionOf) = fun opt => itemName opt == key := by
    funext opt
    rw [Function.comp_apply, optionOf_name]
    rfl
  rw [hname]

section Query
variable {setsEinval : Bool} {str : List UInt8} {p : Parsed}

theorem parsed_items (h : parseOptions str = some p) :
    p.options.1 = (items isComma str).map optionOf ∧ p.ctx.options = p.options.1 := by
  have hcount := (parseOptions_isSome_iff str).mp (h ▸ rfl)
  obtain ⟨q, hq, hnum, hoptions⟩ := parseOptions_eq hcount
  obtain rfl : p = q := Option.some.inj (h.symm.trans hq)
  refine ⟨hoptions, ?_⟩
  have hlt : p.numOptions < 2 ^ 32 := by
    have hmax : intMax < 2 ^ 32 := by decide
    omega
  show p.options.1.take (UInt32.ofNat p.numOptions).toNat = _
  rw [UInt32.toNat_ofNat', Nat.mod_eq_of_lt hlt, List.take_of_length_le p.options.2.le]

/-- What is found in the list of a parsed string: every entry has a name. -/
theorem findOption_parsed (key : List UInt8) (h : parseOptions str = some p) :
    findOption key p.ctx.options = some (firstEntry key p.options.1) := by
  obtain ⟨hoptions, hctx⟩ := parsed_items h
  rw [hctx]
  refine findOption_eq fun o ho => ?_
  rw [hoptions] at ho
  obtain ⟨opt, -, rfl⟩ := List.mem_map.mp ho
  rw [optionOf_name]
  rfl

theorem answers_error {α : Type} {entry : Option GlipOption} {read : List UInt8 → Except ℤ α} {rv : ℤ} :
    Answers entry read (some (.error rv)) := ⟨_, rfl, nofun⟩

theorem answers_read {α : Type} {o : GlipOption} {value : List UInt8} (h : o.value = some value)
    {read : List UInt8 → Except ℤ α} : Answers (some o) read (some (read value)) :=
  ⟨_, rfl, fun _ ha => ⟨o, value, rfl, h, ha⟩⟩

/-- The getters for 16 and 8 bits answer when the one for 32 bits does. -/
theorem Answers.map {α β : Type} {entry : Option GlipOption} {read : List UInt8 → Except ℤ α}
    {outcome : Option (Except ℤ α)} (h : Answers entry read outcome) (f : α → β) :
    Answers entry (fun value => (read value).map f) (outcome.map fun r => r.map f) := by
  obtain ⟨r, rfl, hr⟩ := h
  refine ⟨r.map f, rfl, fun b hb => ?_⟩
  cases r with
  | error rv => cases hb
  | ok a =>
    obtain ⟨o, value, ho, hvalue, hread⟩ := hr a rfl
    refine ⟨o, value, ho, hvalue, ?_⟩
    show (read value).map f = .ok b
    rw [hread]
    exact hb

/-- **A list is safe where the value is there.** The getters answer for a key exactly if the first item with that name,
should there be one, has a `=`. -/
theorem safeToQuery_iff {key : List UInt8} (h : parseOptions str = some p) :
    SafeToQuery setsEinval p key ↔
      ∀ opt, (items isComma str).find? (fun opt => itemName opt == key) = some opt → 0x3d ∈ opt := by
  have hfind := findOption_parsed key h
  have hentry : firstEntry key p.options.1 =
      ((items isComma str).find? fun opt => itemName opt == key).map optionOf := by
    rw [(parsed_items h).1, firstEntry_map]
  rw [hentry] at hfind
  cases hitem : (items isComma str).find? fun opt => itemName opt == key with
  | none =>
    rw [hitem, Option.map_none] at hfind
    have huint32 : Answers (firstEntry key p.options.1) (numberOf setsEinval)
        (glipOptionGetUint32 setsEinval p.ctx key) := by
      rw [glipOptionGetUint32, hfind]
      exact answers_error
    refine iff_of_true ⟨huint32, huint32.map _, huint32.map _, ?_⟩ fun opt hopt => by cases hopt
    rw [glipOptionGetChar, hfind]
    exact answers_error
  | some opt =>
    rw [hitem, Option.map_some] at hfind hentry
    constructor
    · intro hsafe opt' hopt'
      obtain rfl := Option.some.inj hopt'
      obtain ⟨r, hr, -⟩ := hsafe.uint32
      rw [glipOptionGetUint32, hfind] at hr
      refine (optionOf_value_isSome opt).mp ?_
      cases hvalue : (optionOf opt).value with
      | none => simp [hvalue] at hr
      | some value => rfl
    · intro hall
      obtain ⟨value, hvalue⟩ := Option.isSome_iff_exists.mp ((optionOf_value_isSome opt).mpr (hall opt rfl))
      have huint32 : Answers (firstEntry key p.options.1) (numberOf setsEinval)
          (glipOptionGetUint32 setsEinval p.ctx key) := by
        rw [hentry, glipOptionGetUint32, hfind]
        dsimp only
        rw [hvalue]
        exact answers_read hvalue
      refine ⟨huint32, huint32.map _, huint32.map _, ?_⟩
      rw [hentry, glipOptionGetChar, hfind]
      dsimp only
      rw [hvalue]
      exact answers_read hvalue

end Query

/-- The strings "port=80,port" and "port". -/
def portTwice : List UInt8 := [0x70, 0x6f, 0x72, 0x74, 0x3d, 0x38, 0x30, 0x2c, 0x70, 0x6f, 0x72, 0x74]

def port : List UInt8 := [0x70, 0x6f, 0x72, 0x74]

theorem items_port : items isComma port = [port] := by
  have hfirst : next isComma port = some (port, []) := rfl
  rw [items_of_some isComma hfirst, items_of_none isComma rfl]

theorem items_portTwice : items isComma portTwice = [port ++ [0x3d, 0x38, 0x30], port] := by
  have hfirst : next isComma portTwice = some (port ++ [0x3d, 0x38, 0x30], port) := rfl
  rw [items_of_some isComma hfirst, items_port]

theorem portTwice_safe : ∃ p, parseOptions portTwice = some p ∧ SafeToQuery false p port := by
  have hcount : (items isComma portTwice).length ≤ intMax := by
    rw [items_portTwice]
    decide
  obtain ⟨p, hp, -⟩ := parseOptions_eq hcount
  refine ⟨p, hp, (safeToQuery_iff hp).mpr ?_⟩
  rw [items_portTwice]
  decide

/-- The getter for numbers uses a null pointer, and the one for strings returns it. -/
theorem port_unsafe :
    ∃ p, parseOptions port = some p ∧ glipOptionGetUint32 false p.ctx port = none ∧
      glipOptionGetChar p.ctx port = some (.ok none) := by
  have hcount : (items isComma port).length ≤ intMax := by
    rw [items_port]
    decide
  obtain ⟨p, hp, -⟩ := parseOptions_eq hcount
  have hfind := findOption_parsed port hp
  rw [(parsed_items hp).1, items_port] at hfind
  refine ⟨p, hp, ?_, ?_⟩
  · rw [glipOptionGetUint32, hfind]
    rfl
  · rw [glipOptionGetChar, hfind]
    rfl

end GlipOsd.Options
