import LinkTuner.Proofs.Config.Startable

/-!
# The numbering of the actions

A catalog speaks of an action in three ways: by its number, by its row and column, and by the pair
of options it stands for. The number determines the row and the column by division, the row and the
column determine the pair by position, and the way back looks each option up in its list. The
listing of all actions is laid out by itself, row after row. Main statement: in a catalog of two
lists of options the three ways of speaking agree, and the listing agrees with them.
-/

namespace LinkTuner

/-! ## Positions in lists -/

section

variable {α β γ : Type}

/-- In a list without repetitions a value is found at every position that holds it. -/
theorem idxOf?_eq_some_iff_of_nodup [BEq α] [LawfulBEq α] {xs : List α} (h : xs.Nodup) {x : α}
    {i : Nat} : xs.idxOf? x = some i ↔ xs[i]? = some x := by
  rw [List.idxOf?_eq_some_iff, List.getElem?_eq_some_iff]
  refine exists_congr fun hi => and_iff_left_of_imp ?_
  intro hx j hji heq
  -- An earlier position with the same value would be the same position.
  have hj : j = i := (h.getElem_inj_iff).mp (heq.trans hx.symm)
  omega

/-- Rows of one length, laid out one after the other, are found by division. -/
theorem getElem?_rows (xs : List α) (ys : List β) (f : α → β → γ) (i : Nat) :
    (xs.flatMap fun x => ys.map (f x))[i]? =
      xs[i / ys.length]?.bind fun x => ys[i % ys.length]?.map (f x) := by
  induction xs generalizing i with
  | nil => simp
  | cons x xs ih =>
    rw [List.flatMap_cons]
    rcases Nat.lt_or_ge i ys.length with hi | hi
    · rw [List.getElem?_append_left (by simpa using hi), Nat.div_eq_of_lt hi, Nat.mod_eq_of_lt hi]
      simp
    · rw [List.getElem?_append_right (by simpa using hi), List.length_map, ih]
      rcases Nat.eq_zero_or_pos ys.length with hempty | hpos
      · simp [List.length_eq_zero_iff.mp hempty]
      · rw [← Nat.mod_eq_sub_mod hi, Nat.div_eq_sub_div hpos hi, List.getElem?_cons_succ]

end

namespace Catalog

variable {c : Catalog} {a : ActionId} {row column : Nat} {factor : UInt8} {power : Int8}
  {s : RadioSetting}

/-! ## Numbers, rows and columns -/

/-- An action stands in a row and a column of the grid. -/
structure At (c : Catalog) (a : ActionId) (row column : Nat) : Prop where
  inRow : row < c.factors.length
  inColumn : column < c.powers.length
  number : a.toNat = row * c.powers.length + column

theorem lt_size (hrow : row < c.factors.length) (hcolumn : column < c.powers.length) :
    row * c.powers.length + column < c.size := by
  calc row * c.powers.length + column
      < row * c.powers.length + c.powers.length := Nat.add_lt_add_left hcolumn _
    _ = (row + 1) * c.powers.length := (Nat.succ_mul row c.powers.length).symm
    _ ≤ c.size := Nat.mul_le_mul_right _ hrow

theorem At.lt_size (h : c.At a row column) : a.toNat < c.size :=
  h.number ▸ Catalog.lt_size h.inRow h.inColumn

/-- Every number of an action has its row and its column. -/
theorem at_of_lt_size (h : a.toNat < c.size) :
    c.At a (a.toNat / c.powers.length) (a.toNat % c.powers.length) := by
  have hpos : 0 < c.powers.length := Nat.pos_of_mul_pos_left (Nat.zero_lt_of_lt h)
  refine ⟨?_, Nat.mod_lt _ hpos, ?_⟩
  · exact (Nat.div_lt_iff_lt_mul hpos).mpr h
  · rw [Nat.mul_comm, Nat.div_add_mod]

/-- There is no other row and column of that number. -/
theorem At.eq_div_mod (h : c.At a row column) :
    a.toNat / c.powers.length = row ∧ a.toNat % c.powers.length = column := by
  rw [Nat.div_mod_unique (Nat.zero_lt_of_lt h.inColumn), h.number]
  exact ⟨by rw [Nat.mul_comm, Nat.add_comm], h.inColumn⟩

theorem encodeIndex_eq_ok_iff (hsize : c.size < UInt32.size) :
    c.encodeIndex row column = .ok a ↔ c.At a row column := by
  unfold encodeIndex
  split_ifs with hgrid
  · have hlt := Nat.lt_trans (lt_size hgrid.1 hgrid.2) hsize
    rw [Except.ok.injEq, ActionId.ofNat_eq_iff hlt]
    exact ⟨fun hnumber => ⟨hgrid.1, hgrid.2, hnumber⟩, At.number⟩
  · exact iff_of_false nofun fun h => hgrid ⟨h.inRow, h.inColumn⟩

theorem decodeIndex_eq_ok_iff : c.decodeIndex a = .ok (row, column) ↔ c.At a row column := by
  simp only [decodeIndex, check, contains, decide_eq_true_eq]
  split_ifs with hlt
  · simp only [Except.map, Except.ok.injEq, Prod.mk.injEq]
    constructor
    · rintro ⟨rfl, rfl⟩
      exact at_of_lt_size hlt
    · exact At.eq_div_mod
  · exact iff_of_false nofun fun h => hlt h.lt_size

/-! ## Pairs of options -/

theorem setting?_eq_some_iff : c.setting? row column = some s ↔
    c.factors[row]? = some s.factor ∧ c.powers[column]? = some s.power := by
  obtain ⟨factor, power⟩ := s
  simp only [setting?, Option.bind_eq_bind, Option.pure_def, Option.bind_eq_some_iff,
    Option.some.injEq, RadioSetting.mk.injEq]
  constructor
  · rintro ⟨f, hf, p, hp, rfl, rfl⟩
    exact ⟨hf, hp⟩
  · rintro ⟨hf, hp⟩
    exact ⟨factor, hf, power, hp, rfl, rfl⟩

/-- Every place in the grid stands for a pair of options. -/
theorem At.exists_setting (h : c.At a row column) : ∃ s, c.setting? row column = some s := by
  have hrow := h.inRow
  have hcolumn := h.inColumn
  refine ⟨⟨c.factors[row], c.powers[column]⟩, setting?_eq_some_iff.mpr ⟨?_, ?_⟩⟩
  · exact List.getElem?_eq_getElem hrow
  · exact List.getElem?_eq_getElem hcolumn

/-- Every place in the grid has an action. -/
theorem exists_at (hsize : c.size < UInt32.size) (hrow : row < c.factors.length)
    (hcolumn : column < c.powers.length) : ∃ a, c.At a row column :=
  ⟨.ofNat (row * c.powers.length + column), hrow, hcolumn,
    ActionId.toNat_ofNat (Nat.lt_trans (lt_size hrow hcolumn) hsize)⟩

/-- An action stands for the pair of options at its place. -/
structure StandsFor (c : Catalog) (a : ActionId) (s : RadioSetting) : Prop where
  place : c.At a (a.toNat / c.powers.length) (a.toNat % c.powers.length)
  setting : c.setting? (a.toNat / c.powers.length) (a.toNat % c.powers.length) = some s

theorem standsFor_of_at (h : c.At a row column) (hs : c.setting? row column = some s) :
    c.StandsFor a s := by
  obtain ⟨rfl, rfl⟩ := h.eq_div_mod
  exact ⟨h, hs⟩

theorem decode_eq_ok_iff : c.decode a = .ok s ↔ c.StandsFor a s := by
  unfold decode
  rw [bind_eq_ok_iff]
  constructor
  · rintro ⟨⟨row, column⟩, hplace, hs⟩
    have hat := decodeIndex_eq_ok_iff.mp hplace
    obtain ⟨t, ht⟩ := hat.exists_setting
    simp only [ht] at hs
    cases hs
    exact standsFor_of_at hat ht
  · rintro ⟨hat, hs⟩
    refine ⟨_, decodeIndex_eq_ok_iff.mpr hat, ?_⟩
    simp only [hs]
    rfl

theorem exists_decode_iff : (∃ s, c.decode a = .ok s) ↔ a.toNat < c.size := by
  constructor
  · rintro ⟨s, hs⟩
    exact (decode_eq_ok_iff.mp hs).place.lt_size
  · intro hlt
    have hat := at_of_lt_size hlt
    obtain ⟨s, hs⟩ := hat.exists_setting
    exact ⟨s, decode_eq_ok_iff.mpr ⟨hat, hs⟩⟩

/-- Looking the options up finds the place they are at. -/
theorem encode_eq_ok_iff (hfactors : c.factors.Nodup) (hpowers : c.powers.Nodup)
    (hsize : c.size < UInt32.size) :
    c.encode factor power = .ok a ↔ c.StandsFor a ⟨factor, power⟩ := by
  have hrow (i : Nat) := idxOf?_eq_some_iff_of_nodup hfactors (x := factor) (i := i)
  have hcolumn (j : Nat) := idxOf?_eq_some_iff_of_nodup hpowers (x := power) (i := j)
  unfold encode
  constructor
  · intro h
    split at h
    · rename_i row column hi hj
      refine standsFor_of_at ((encodeIndex_eq_ok_iff hsize).mp h) ?_
      exact setting?_eq_some_iff.mpr ⟨(hrow row).mp hi, (hcolumn column).mp hj⟩
    · cases h
  · rintro ⟨hat, hs⟩
    obtain ⟨hi, hj⟩ := setting?_eq_some_iff.mp hs
    simp only [(hrow _).mpr hi, (hcolumn _).mpr hj]
    exact (encodeIndex_eq_ok_iff hsize).mpr hat

theorem exists_encode_iff (hfactors : c.factors.Nodup) (hpowers : c.powers.Nodup)
    (hsize : c.size < UInt32.size) :
    (∃ a, c.encode factor power = .ok a) ↔ factor ∈ c.factors ∧ power ∈ c.powers := by
  simp only [encode_eq_ok_iff hfactors hpowers hsize]
  constructor
  · rintro ⟨a, -, hs⟩
    obtain ⟨hi, hj⟩ := setting?_eq_some_iff.mp hs
    exact ⟨List.mem_of_getElem? hi, List.mem_of_getElem? hj⟩
  · rintro ⟨hfactor, hpower⟩
    obtain ⟨row, hrow, hi⟩ := List.mem_iff_getElem.mp hfactor
    obtain ⟨column, hcolumn, hj⟩ := List.mem_iff_getElem.mp hpower
    obtain ⟨a, hat⟩ := exists_at hsize hrow hcolumn
    refine ⟨a, standsFor_of_at hat (setting?_eq_some_iff.mpr ⟨?_, ?_⟩)⟩
    · exact List.getElem?_eq_some_iff.mpr ⟨hrow, hi⟩
    · exact List.getElem?_eq_some_iff.mpr ⟨hcolumn, hj⟩

theorem exists_encodeIndex_iff (hsize : c.size < UInt32.size) :
    (∃ a, c.encodeIndex row column = .ok a) ↔
      row < c.factors.length ∧ column < c.powers.length := by
  simp only [encodeIndex_eq_ok_iff hsize]
  constructor
  · rintro ⟨a, hat⟩
    exact ⟨hat.inRow, hat.inColumn⟩
  · rintro ⟨hrow, hcolumn⟩
    exact exists_at hsize hrow hcolumn

/-! ## The listing -/

theorem length_entries : c.entries.length = c.size := by
  simp [entries, size]

/-- The entry at a position has the number of that position and the options at its place. -/
theorem getElem?_entries (i : Nat) : c.entries[i]? =
    (c.setting? (i / c.powers.length) (i % c.powers.length)).map fun s => (.ofNat i, s) := by
  rw [entries, List.getElem?_mapIdx, getElem?_rows]
  congr 1
  simp only [setting?, Option.bind_eq_bind, Option.pure_def, Option.map_eq_bind]
  rfl

/-- The listing holds an action at the position of its number, with the options it stands for. -/
theorem getElem?_entries_eq_some_iff (hsize : c.size < UInt32.size) {i : Nat} :
    c.entries[i]? = some (a, s) ↔ a.toNat = i ∧ c.decode a = .ok s := by
  rw [getElem?_entries, Option.map_eq_some_iff, decode_eq_ok_iff]
  constructor
  · rintro ⟨t, ht, hentry⟩
    cases hentry
    have hentry : c.entries[i]? = some (.ofNat i, s) := by rw [getElem?_entries, ht]; rfl
    have hlt : i < c.size := length_entries ▸ (List.getElem?_eq_some_iff.mp hentry).1
    have hnumber := ActionId.toNat_ofNat (Nat.lt_trans hlt hsize)
    refine ⟨hnumber, at_of_lt_size (hnumber.symm ▸ hlt), ?_⟩
    rwa [hnumber]
  · rintro ⟨rfl, -, hs⟩
    exact ⟨s, hs, by rw [ActionId.ofNat_toNat]⟩

theorem map_toNat_entries (hsize : c.size < UInt32.size) :
    (c.entries.map fun entry => entry.1.toNat) = List.range c.size := by
  apply List.ext_getElem
  · rw [List.length_map, length_entries, List.length_range]
  · intro i hi _
    rw [List.getElem_map, List.getElem_range]
    rw [List.length_map] at hi
    exact ((getElem?_entries_eq_some_iff hsize).mp (List.getElem?_eq_getElem hi)).1

/-! ## Catalogs of two lists of options -/

theorem size_lt_of_ofOptions {factors : List UInt8} {powers : List Int8}
    (h : ofOptions factors powers = .ok c) : c.size < UInt32.size := by
  unfold ofOptions at h
  split_ifs at h with _ _ hmany
  cases h
  exact Nat.lt_of_not_le hmany

/-- In a catalog of two lists of options the numbers below the size, the pairs of options and the
places of the grid are three names for the same actions: each way of reading one is defined exactly
there and undone by its converse. No number is cut to fit, and the listing goes through the numbers
in order, each with the options that it stands for. -/
theorem numbers_pairs_and_places_agree {factors : List UInt8} {powers : List Int8}
    (h : ofOptions factors powers = .ok c) :
    (∀ a, (∃ s, c.decode a = .ok s) ↔ a.toNat < factors.length * powers.length) ∧
    (∀ factor power, (∃ a, c.encode factor power = .ok a) ↔ factor ∈ factors ∧ power ∈ powers) ∧
    (∀ row column, (∃ a, c.encodeIndex row column = .ok a) ↔
      row < factors.length ∧ column < powers.length) ∧
    (∀ a s, c.decode a = .ok s ↔ c.encode s.factor s.power = .ok a) ∧
    (∀ a row column, c.decodeIndex a = .ok (row, column) ↔ c.encodeIndex row column = .ok a) ∧
    factors.length * powers.length < UInt32.size ∧
    (∀ a row column, c.encodeIndex row column = .ok a →
      a.toNat = row * powers.length + column) ∧
    (c.entries.map fun entry => entry.1.toNat) = List.range (factors.length * powers.length) ∧
    ∀ entry ∈ c.entries, c.decode entry.1 = .ok entry.2 := by
  have hsize := size_lt_of_ofOptions h
  obtain ⟨-, ⟨hfactors, hpowers⟩, rfl⟩ := ofOptions_eq_ok_iff.mp h
  refine ⟨fun a => exists_decode_iff, fun factor power => exists_encode_iff hfactors hpowers hsize,
    fun row column => exists_encodeIndex_iff hsize, ?_, ?_, hsize, ?_, map_toNat_entries hsize, ?_⟩
  · intro a s
    rw [decode_eq_ok_iff, encode_eq_ok_iff hfactors hpowers hsize]
  · intro a row column
    rw [decodeIndex_eq_ok_iff, encodeIndex_eq_ok_iff hsize]
  · intro a row column hplace
    exact ((encodeIndex_eq_ok_iff hsize).mp hplace).number
  · intro entry hentry
    obtain ⟨i, hi⟩ := List.mem_iff_getElem?.mp hentry
    exact ((getElem?_entries_eq_some_iff hsize).mp hi).2

/-- Two spreading factors and three powers. -/
def twoByThree : Catalog := ⟨[7, 9], [2, 8, 14]⟩

/-- Two factors and three powers make six actions. The fifth stands for the second factor and the
second power, and a power that is not listed makes no action. -/
theorem numbers_pairs_and_places_agree_twoByThree :
    ofOptions [7, 9] [2, 8, 14] = .ok twoByThree ∧
      twoByThree.encode 9 8 = .ok (.ofNat 4) ∧ twoByThree.decodeIndex (.ofNat 4) = .ok (1, 1) ∧
      (¬∃ a, twoByThree.encode 9 5 = .ok a) ∧ (¬∃ s, twoByThree.decode (.ofNat 6) = .ok s) ∧
      (twoByThree.entries.map fun entry => entry.1.toNat) = List.range 6 := by
  have hgrid : ofOptions [7, 9] [2, 8, 14] = .ok twoByThree := rfl
  obtain ⟨hdecode, hencode, -, hpair, hplace, -, -, hlisted, -⟩ :=
    numbers_pairs_and_places_agree hgrid
  refine ⟨hgrid, (hpair (.ofNat 4) ⟨9, 8⟩).mp rfl, (hplace _ 1 1).mpr rfl, ?_, ?_, hlisted⟩
  · rw [hencode]
    decide
  · rw [hdecode]
    decide

end Catalog

end LinkTuner
