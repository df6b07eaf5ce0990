import GlipOsd.Uart.Host

/-! # The host on a line that is cut anywhere

What has arrived at the host may end in the middle of an item. Parsing does not look beyond the bytes that
it takes, so that the read part behaves as if the item were complete, or it waits for the rest of it. With
the write part and the call of the user that fills its buffer, in terms of the stored bytes.
-/

namespace GlipOsd.Uart
open CircularBuffer
set_option autoImplicit false

/-- What is parsed does not depend on what arrives later, unless parsing waits for it. -/
theorem parseBuffer_append (ctx : Ctx) (chunk rx more : List UInt8) :
    parseBuffer ctx chunk rx = .error .blocked ∨
      parseBuffer ctx chunk (rx ++ more) = (parseBuffer ctx chunk rx).map fun r => (r.1, r.2 ++ more) := by
  fun_induction parseBuffer ctx chunk rx with
  | case2 ctx rx chunk ctx' hstore ih =>
    refine ih.imp id fun h => ?_
    rw [parseBuffer.eq_def]
    simp [hstore, h]
  | case3 ctx rx chunk stop hstore =>
    right
    rw [parseBuffer.eq_def]
    simp [hstore, Except.map]
  | case12 ctx b chunk rx hb ctx' hstore ih =>
    refine ih.imp id fun h => ?_
    rw [parseBuffer.eq_def]
    simp [hb, hstore, h]
  | case13 ctx b chunk rx hb stop hstore =>
    right
    rw [parseBuffer.eq_def]
    simp [hb, hstore, Except.map]
  | _ => simp_all [parseBuffer, Except.map]

theorem threadRead_append (ctx : Ctx) (rx more : List UInt8) (n : ℕ) :
    threadRead ctx rx n = .error .blocked ∨
      threadRead ctx (rx ++ more) (min n rx.length) = (threadRead ctx rx n).map fun r => (r.1, r.2 ++ more) := by
  have htake (m : ℕ) : (rx ++ more).take (min (min n rx.length) m) = rx.take (min n m) ∧
      (rx ++ more).drop (min (min n rx.length) m) = rx.drop (min n m) ++ more := by
    have hle : min (min n rx.length) m ≤ rx.length := by omega
    rw [List.take_append_of_le_length hle, List.drop_append_of_le_length hle]
    obtain hlow | hhigh := Nat.le_total (min n m) rx.length
    · have hmin : min (min n rx.length) m = min n m := by omega
      rw [hmin]
      exact ⟨rfl, rfl⟩
    · have hmin : min (min n rx.length) m = rx.length := by omega
      rw [hmin, List.take_of_length_le hhigh, List.drop_eq_nil_of_le hhigh, List.take_length, List.drop_length]
      exact ⟨rfl, rfl⟩
  simp only [threadRead]
  split_ifs with hfree
  · obtain ⟨htake, hdrop⟩ := htake 1
    rw [htake, hdrop]
    rcases hfront : rx.take (min n 1) with _ | ⟨b, front⟩
    · exact .inr rfl
    · by_cases hb : b = 0xfe
      · rcases hrest : rx.drop (min n 1) with _ | ⟨c, _ | ⟨d, rest⟩⟩
        · simp [hb]
        · simp [hb]
        · simp [hb, Except.map]
      · simp [hb, Except.map]
  · obtain ⟨htake, hdrop⟩ := htake (Util.toSize (Util.min (cbufFreeLevel ctx.inputBuffer) tmpBufferSize))
    rw [htake, hdrop]
    exact parseBuffer_append ctx _ _ more

/-- The part of a credit message that has arrived. -/
def Partial (part : List UInt8) : Prop :=
  ∃ (tranche : BitVec 15) (more : List UInt8), (Item.credit tranche).encode = part ++ more ∧ more ≠ []

section Parts
variable {k : ℕ} {ctx : Ctx} {q : List UInt8}

/-- The read part on a line that ends in the middle of an item: it waits for the rest of that, or it parses
some of the items in front. -/
theorem threadRead_line {part : List UInt8} {items : List Item} (hk : k ≤ 30) (h : Rep k ctx.inputBuffer q)
    (hcredit : (dataWords items).length ≤ ctx.credit)
    (hfull : cbufFreeLevel ctx.inputBuffer = 0 → ∀ d rest, items ≠ .word d :: rest) (hpart : Partial part) (n : ℕ) :
    threadRead ctx (encode items ++ part) n = .error .blocked ∨
      ∃ parsed rest buf, items = parsed ++ rest ∧ Rep k buf (q ++ dataWords parsed) ∧
        threadRead ctx (encode items ++ part) n = .ok
          ({ ctx with
              inputBuffer := buf
              credit := ctx.credit - (dataWords parsed).length
              debt := ctx.debt + creditSum parsed }, encode rest ++ part) := by
  obtain ⟨tranche, more, hmore, hne⟩ := hpart
  have hall : encode (items ++ [.credit tranche]) = encode items ++ part ++ more := by
    rw [encode_append, encode_cons, encode_nil, List.append_nil, hmore, List.append_assoc]
  have hwords : dataWords (items ++ [.credit tranche]) = dataWords items := by
    rw [dataWords_append]
    exact List.append_nil _
  have hfront (hfree : cbufFreeLevel ctx.inputBuffer = 0) (d : UInt8) (rest : List Item) :
      items ++ [.credit tranche] ≠ .word d :: rest := by
    intro heq
    cases items with
    | nil => cases heq
    | cons item items =>
      obtain ⟨rfl, -⟩ := List.cons.inj heq
      exact hfull hfree d items rfl
  -- as if the item were complete, which is not read
  obtain ⟨parsed, rest, buf, hitems, -, hrep, hread⟩ := threadRead_encode hk h (hwords.symm ▸ hcredit) hfront
    (min n (encode items ++ part).length)
  refine (threadRead_append ctx (encode items ++ part) more n).imp id fun hsame => ?_
  rw [← hall, hread] at hsame
  cases hresult : threadRead ctx (encode items ++ part) n with
  | error stop =>
    rw [hresult] at hsame
    cases hsame
  | ok result =>
    rw [hresult, Except.map, Except.ok.injEq, Prod.mk.injEq] at hsame
    obtain ⟨hctx, hrest⟩ := hsame
    obtain rfl | ⟨front, last, rfl⟩ := List.eq_nil_or_concat rest
    · exact absurd (List.append_eq_nil_iff.mp hrest.symm).2 hne
    · rw [List.concat_eq_append, ← List.append_assoc] at hitems
      obtain ⟨rfl, hlast⟩ := List.append_inj' hitems rfl
      obtain rfl := List.singleton_inj.mp hlast
      rw [List.concat_eq_append, encode_append, encode_cons, encode_nil, List.append_nil, hmore,
        ← List.append_assoc] at hrest
      refine ⟨parsed, front, buf, rfl, hrep, ?_⟩
      rw [List.append_cancel_right hrest, hctx]

/-- The write part: some of the words are sent, no more than are owed. -/
theorem threadWrite_sends (hk : k ≤ 30) (h : Rep k ctx.outputBuffer q) (hdebt : ctx.debt < 2 ^ 31) :
    ∃ n buf, n ≤ ctx.debt ∧ n ≤ q.length ∧ Rep k buf (q.drop n) ∧
      threadWrite ctx = .ok ({ ctx with outputBuffer := buf, debt := ctx.debt - n }, (q.take n).flatMap sendWord) := by
  have hlen : q.length ≤ 2 ^ 30 := h.fits.trans (h.size_le hk)
  have hnothing : ∃ n buf, n ≤ ctx.debt ∧ n ≤ q.length ∧ Rep k buf (q.drop n) ∧
      Except.ok (ε := Stop) (ctx, []) =
        .ok ({ ctx with outputBuffer := buf, debt := ctx.debt - n }, (q.take n).flatMap sendWord) :=
    ⟨0, ctx.outputBuffer, Nat.zero_le _, Nat.zero_le _, h, rfl⟩
  unfold threadWrite
  split_ifs with howing
  · have hchunk : Util.toSize (Util.min ctx.debt tmpBufferSize) = min ctx.debt tmpBufferSize := by
      rw [Util.min_eq hdebt (by decide), Util.toSize_natCast (by omega)]
    have hsmall : min ctx.debt tmpBufferSize ≤ 256 := Nat.min_le_right _ _
    have hsize : Util.toSize (Util.min q.length (min ctx.debt tmpBufferSize)) =
        min q.length (min ctx.debt tmpBufferSize) := by
      rw [Util.min_eq (by omega) (by omega), Util.toSize_natCast (by omega)]
    simp only [h.fillLevel_eq, hchunk, hsize]
    split_ifs with havail
    · obtain ⟨hok, hrep⟩ := cbufRead_ok h (by omega) (Nat.min_le_left q.length (min ctx.debt tmpBufferSize))
      refine ⟨_, _, (Nat.min_le_right _ _).trans (Nat.min_le_left _ _), Nat.min_le_left _ _, hrep, ?_⟩
      split
      · rename_i words buf hread
        rw [hread] at hok ⊢
        obtain rfl := Except.ok.inj hok
        rfl
      · rename_i hread
        rw [hread] at hok
        cases hok
    · exact hnothing
  · exact hnothing

/-- The call of the user stores as much from the front as it says. -/
theorem gbUartWrite_stores (h : Rep k ctx.outputBuffer q) (channel : ℕ) (data : List UInt8) :
    ∃ buf, (gbUartWrite ctx channel data).2 = { ctx with outputBuffer := buf } ∧
      Rep k buf (q ++ data.take ((gbUartWrite ctx channel data).1.getD 0)) := by
  have hfits := h.fits
  unfold gbUartWrite
  split_ifs with hchannel
  · exact ⟨ctx.outputBuffer, rfl, by simpa using h⟩
  · simp only [h.freeLevel_eq, Option.getD_some]
    refine ⟨_, rfl, (cbufWrite_ok h _ ?_).2⟩
    rw [List.length_take]
    split_ifs <;> omega

end Parts

end GlipOsd.Uart
