import TritonCpu.LinearLayout

/-!
# The function of a layout

Applied to coordinates that fit its input dimensions, a layout returns, for
each output dimension, the xor of the bases that the bits of the coordinates
select.
-/

set_option autoImplicit false

namespace TritonCpu

open XorSpan BitFields List

section Monad

variable {α β : Type}

theorem mapM_ok {f : α → Except LayoutError β} {g : α → β} {l : List α}
    (h : ∀ a ∈ l, f a = .ok (g a)) : l.mapM f = .ok (l.map g) := by
  induction l with
  | nil => rfl
  | cons a l ih =>
    rw [mapM_cons, h a mem_cons_self, ih fun b hb => h b (mem_cons_of_mem _ hb)]
    rfl

theorem bind_eq_ok {x : Except LayoutError α} {f : α → Except LayoutError β} {b : β}
    (h : x >>= f = .ok b) : ∃ a, x = .ok a ∧ f a = .ok b := by
  cases x with
  | error e => simp [bind, Except.bind] at h
  | ok a => exact ⟨a, rfl, h⟩

theorem and_two_pow_ne_zero (val i : ℕ) : val &&& 2 ^ i ≠ 0 ↔ val.testBit i = true := by
  rw [Nat.and_two_pow]
  cases val.testBit i <;> simp

theorem foldlM_bits (f : ℕ → ℕ) (val outVal : ℕ) {n : ℕ} (hn : n ≤ 31) :
    (List.range n).foldlM (fun outVal i => do
      let bit ← shiftOne i
      pure (if val &&& bit ≠ 0 then outVal ^^^ f i else outVal)) outVal =
      Except.ok (outVal ^^^ combine ((List.range n).map f) val) := by
  induction n with
  | zero => simp [pure, Except.pure]
  | succ n ih =>
    rw [range_succ, foldlM_append, ih (by omega), map_append, map_singleton,
      combine_concat, length_map, length_range]
    simp only [foldlM_cons, foldlM_nil, shiftOne_ok (show n < 31 by omega), bind,
      Except.bind, pure, Except.pure, and_two_pow_ne_zero]
    split_ifs <;> simp [Nat.xor_assoc]

end Monad

section Lookup

theorem lookup_map {names : List String} (f : String → ℕ) {name : String} (h : name ∈ names) :
    (names.map fun d => (d, f d)).lookup name = some (f name) := by
  induction names with
  | nil => simp at h
  | cons d ds ih =>
    rw [map_cons, lookup_cons]
    by_cases hd : name = d
    · subst hd
      simp
    · rw [beq_false_of_ne hd]
      exact ih ((mem_cons.mp h).resolve_left hd)

theorem lookup_map_of_notMem {names : List String} (f : String → ℕ) {name : String}
    (h : name ∉ names) : (names.map fun d => (d, f d)).lookup name = none := by
  rw [lookup_eq_none_iff]
  intro e he
  obtain ⟨d, hd, rfl⟩ := mem_map.mp he
  have hne : name ≠ d := by
    rintro rfl
    exact h hd
  simpa using hne

end Lookup

section Apply

variable (L : RawLayout)

theorem map_getBasis {inDim : String} {bs : List (List ℕ)} (h : (inDim, bs) ∈ L.bases.entries)
    (outDim : String) : (List.range (L.getInDimSizeLog2 inDim)).map
      (fun i => L.getBasis inDim i outDim) = bs.map fun b => b.getD (L.getOutDimIndex outDim) 0 := by
  rw [getInDimSizeLog2_of_mem L h]
  apply ext_getElem (by simp)
  intro i hi hi'
  have hlt : i < bs.length := by simpa using hi
  simp only [getElem_map, getElem_range, RawLayout.getBasis, MapVector.find_of_mem h,
    Option.getD_some]
  rw [getD_eq_getElem _ _ hlt]

theorem applyCoordinate_eq {inDim : String} {bs : List (List ℕ)}
    (h : (inDim, bs) ∈ L.bases.entries) (hwidth : bs.length ≤ 31) (outDim : String)
    (outVal v : ℕ) : L.applyCoordinate outDim outVal (inDim, v) = .ok (outVal ^^^
      combine (bs.map fun b => b.getD (L.getOutDimIndex outDim) 0) v) := by
  have hlog : L.getInDimSizeLog2 inDim ≤ 31 := by rwa [getInDimSizeLog2_of_mem L h]
  rw [RawLayout.applyCoordinate, foldlM_bits _ _ _ hlog, map_getBasis L h]

theorem foldlM_coordinates (outDim : String) (es : List (String × List (List ℕ)))
    (hes : ∀ e ∈ es, e ∈ L.bases.entries) (vals : List ℕ)
    (hfit : Fits vals (es.map fun e => e.2.length)) (hwidth : ∀ e ∈ es, e.2.length ≤ 31)
    (outVal : ℕ) :
    ((es.map Prod.fst).zip vals).foldlM (L.applyCoordinate outDim) outVal =
      Except.ok (outVal ^^^
        combine ((es.map Prod.snd).flatten.map fun b => b.getD (L.getOutDimIndex outDim) 0)
          (pack (es.map fun e => e.2.length) vals)) := by
  induction es generalizing vals outVal with
  | nil => simp [pure, Except.pure]
  | cons e es ih =>
    cases hfit with
    | @cons v k vs ks hv hvs =>
      rw [map_cons, zip_cons_cons, foldlM_cons,
        applyCoordinate_eq L (hes _ mem_cons_self) (hwidth _ mem_cons_self)]
      have hrest := ih (fun e he => hes e (mem_cons_of_mem _ he)) vs hvs
        (fun e he => hwidth e (mem_cons_of_mem _ he))
        (outVal ^^^ combine (e.2.map fun b => b.getD (L.getOutDimIndex outDim) 0) v)
      refine hrest.trans ?_
      rw [map_cons, flatten_cons, map_append, map_cons,
        combine_groups _ _ _ _ (by simp) hv, Nat.xor_assoc]

theorem apply_zip {vals : List ℕ} (hfit : Fits vals L.inWidths)
    (hwidth : ∀ k ∈ L.inWidths, k ≤ 31) :
    L.apply (L.getInDimNames.zip vals) = .ok (L.getOutDimNames.map fun outDim =>
      (outDim, combine (L.column outDim) (pack L.inWidths vals))) := by
  have hlen : L.getInDimNames.length ≤ vals.length := by
    rw [← length_inWidths, hfit.length_eq]
  have hwidths : L.inWidths = L.bases.entries.map fun e => e.2.length := by
    rw [RawLayout.inWidths, MapVector.values, map_map]
    rfl
  have hdims : assertDimsEqualIgnoringOrder ((L.getInDimNames.zip vals).map Prod.fst)
      L.getInDimNames = .ok () := by
    rw [map_fst_zip hlen, assertDimsEqualIgnoringOrder, if_pos (by simp)]
  rw [RawLayout.apply, hdims]
  apply mapM_ok
  intro outDim _
  have hloop := foldlM_coordinates L outDim L.bases.entries (fun e he => he) vals (hwidths ▸ hfit)
    (fun e he => hwidth _ (hwidths ▸ mem_map_of_mem he)) 0
  rw [Nat.zero_xor, ← hwidths] at hloop
  exact congrArg (fun r => r >>= fun outVal => pure (outDim, outVal)) hloop

end Apply

end TritonCpu
