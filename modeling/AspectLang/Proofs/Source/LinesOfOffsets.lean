import AspectLang.Source.LineMap
import Mathlib.Data.List.DropRight

/-! # The line and the column of an offset

Halving sorted numbers ends at the number or behind those that are smaller
(`searchBetween_places`).  The starts of the lines of a text are sorted, and those that are at or
before an offset come from the bytes before the offset alone (`LineMap.starts_split`).  So the line
of an offset is the number of newlines before it, the search never falls short of the first line
(`LineMap.lineOf?_ofSource`), and the column is the distance from the byte behind the last newline
(`LineMap.location?_ofSource`).  The only column that is no 64-bit word is that of the largest
offset in a text that has no newline before it. -/

namespace AspectLang

/-! ### Halving -/

/-- What a search tells about sorted numbers: the number is at the index, or the numbers below the
index are smaller and those from it on are larger. -/
def SearchResult.Places (xs : Array Nat) (x : Nat) : SearchResult → Prop
  | .found index => xs[index]? = some x
  | .missing smaller => smaller ≤ xs.size ∧ ∀ i y, xs[i]? = some y → (y ≤ x ↔ i < smaller)

theorem getElem_lt_of_lt {xs : Array Nat} (hsorted : xs.toList.Pairwise (· < ·)) {i j : Nat}
    (hj : j < xs.size) (hij : i < j) : xs[i] < xs[j] :=
  List.pairwise_iff_getElem.mp hsorted i j (hij.trans hj) hj hij

section

variable {xs : Array Nat} {x lo hi : Nat} {hhi : hi ≤ xs.size}

/-- **Halving places a number** if what was cut off on the left is smaller and what was cut off on
the right is larger. -/
theorem searchBetween_places (hsorted : xs.toList.Pairwise (· < ·)) (hlohi : lo ≤ hi)
    (hleft : ∀ i y, xs[i]? = some y → i < lo → y < x)
    (hright : ∀ i y, xs[i]? = some y → hi ≤ i → x < y) :
    (searchBetween xs x lo hi hhi).Places xs x := by
  fun_induction searchBetween xs x lo hi hhi with
  | case1 lo hi hhi hlt middle hmiddle heq =>
      change xs[middle]? = some x
      rw [Array.getElem?_eq_getElem hmiddle, heq]
  | case2 lo hi hhi hlt middle hmiddle hne hless ih =>
      have hle : middle + 1 ≤ hi := by omega
      refine ih hle (fun i y hy hbelow => ?_) hright
      obtain ⟨hsize, rfl⟩ := Array.getElem?_eq_some_iff.mp hy
      rcases Nat.lt_or_eq_of_le (Nat.le_of_lt_succ hbelow) with hbelow | rfl
      · exact (getElem_lt_of_lt hsorted hmiddle hbelow).trans hless
      · exact hless
  | case3 lo hi hhi hlt middle hmiddle hne hless ih =>
      have hle : lo ≤ middle := by omega
      refine ih hle hleft (fun i y hy habove => ?_)
      obtain ⟨hsize, rfl⟩ := Array.getElem?_eq_some_iff.mp hy
      have hgreater : x < xs[middle] := by omega
      rcases Nat.lt_or_eq_of_le habove with habove | rfl
      · exact hgreater.trans (getElem_lt_of_lt hsorted hsize habove)
      · exact hgreater
  | case4 lo hi hhi hlt =>
      obtain rfl : lo = hi := by omega
      refine ⟨hhi, fun i y hy => ⟨fun hle => ?_, fun hbelow => (hleft i y hy hbelow).le⟩⟩
      by_contra hge
      exact absurd (hright i y hy (Nat.le_of_not_lt hge)) (Nat.not_lt_of_le hle)

theorem binarySearch_places (hsorted : xs.toList.Pairwise (· < ·)) :
    (binarySearch xs x).Places xs x := by
  refine searchBetween_places hsorted (Nat.zero_le _)
    (fun i y hy hbelow => absurd hbelow (Nat.not_lt_zero i)) (fun i y hy habove => ?_)
  rw [Array.getElem?_eq_none habove] at hy
  cases hy

end

namespace LineMap

/-! ### Where lines start -/

variable {bytes : List UInt8} {offset : Nat}

theorem length_startsAfterNewlines :
    (startsAfterNewlines offset bytes).length = bytes.count newline := by
  induction bytes generalizing offset with
  | nil => rfl
  | cons b bytes ih =>
      rw [startsAfterNewlines, List.count_cons]
      by_cases hb : b = newline
      · rw [if_pos hb, if_pos (beq_iff_eq.mpr hb), List.length_cons, ih]
      · rw [if_neg hb, if_neg (mt beq_iff_eq.mp hb), ih, Nat.add_zero]

theorem startsAfterNewlines_append (as bs : List UInt8) :
    startsAfterNewlines offset (as ++ bs) =
      startsAfterNewlines offset as ++ startsAfterNewlines (offset + as.length) bs := by
  induction as generalizing offset with
  | nil => rfl
  | cons a as ih =>
      have hplace : offset + 1 + as.length = offset + (a :: as).length := by
        rw [List.length_cons]
        omega
      rw [List.cons_append, startsAfterNewlines, startsAfterNewlines, ih, hplace]
      split <;> rfl

theorem bounds_of_mem_starts {start : Nat} (h : start ∈ startsAfterNewlines offset bytes) :
    offset < start ∧ start ≤ offset + bytes.length := by
  induction bytes generalizing offset with
  | nil => cases h
  | cons b bytes ih =>
      have hlater : start ∈ startsAfterNewlines (offset + 1) bytes →
          offset < start ∧ start ≤ offset + (b :: bytes).length := by
        intro hmem
        obtain ⟨hlo, hhi⟩ := ih hmem
        rw [List.length_cons]
        omega
      rw [startsAfterNewlines] at h
      split at h
      · rcases List.mem_cons.mp h with rfl | hmem
        · rw [List.length_cons]
          omega
        · exact hlater hmem
      · exact hlater h

theorem pairwise_startsAfterNewlines : (startsAfterNewlines offset bytes).Pairwise (· < ·) := by
  induction bytes generalizing offset with
  | nil => exact .nil
  | cons b bytes ih =>
      rw [startsAfterNewlines]
      split
      · exact .cons (fun _ hmem => (bounds_of_mem_starts hmem).1) ih
      · exact ih

theorem sorted_starts (source : String) : (ofSource source).starts.toList.Pairwise (· < ·) :=
  .cons (fun _ hmem => (bounds_of_mem_starts hmem).1) pairwise_startsAfterNewlines

/-- The offset behind the last newline of a run of bytes, or zero if there is none. -/
def behindLastNewline (bytes : List UInt8) : Nat := (bytes.rdropWhile (· != newline)).length

theorem behindLastNewline_eq_zero_iff : behindLastNewline bytes = 0 ↔ newline ∉ bytes := by
  unfold behindLastNewline
  rw [List.length_eq_zero_iff, List.rdropWhile_eq_nil_iff]
  refine ⟨fun h hmem => ?_, fun h b hb => ?_⟩
  · exact absurd (h _ hmem) (by decide)
  · rw [bne_iff_ne]
    rintro rfl
    exact h hb

theorem behindLastNewline_le : behindLastNewline bytes ≤ bytes.length :=
  (List.rdropWhile_prefix _ bytes).length_le

theorem behindLastNewline_concat (b : UInt8) : behindLastNewline (bytes ++ [b]) =
    if b = newline then bytes.length + 1 else behindLastNewline bytes := by
  unfold behindLastNewline
  rw [List.rdropWhile_concat]
  by_cases hb : b = newline <;> simp [hb]

/-- The last line that starts in or right behind a run of bytes starts behind its last newline. -/
theorem getElem?_starts_count : (0 :: startsAfterNewlines 0 bytes)[bytes.count newline]? =
    some (behindLastNewline bytes) := by
  induction bytes using List.reverseRecOn with
  | nil => rfl
  | append_singleton bytes b ih =>
      rw [startsAfterNewlines_append, Nat.zero_add, behindLastNewline_concat, List.count_append]
      have hlength : (0 :: startsAfterNewlines 0 bytes).length = bytes.count newline + 1 := by
        rw [List.length_cons, length_startsAfterNewlines]
      rw [← List.cons_append]
      by_cases hb : b = newline
      · have hone : startsAfterNewlines bytes.length [b] = [bytes.length + 1] := if_pos hb
        have hcount : [b].count newline = 1 := by rw [hb]; rfl
        rw [hone, hcount, ← hlength, List.getElem?_concat_length, if_pos hb]
      · have hnone : startsAfterNewlines bytes.length [b] = [] := if_neg hb
        have hcount : [b].count newline = 0 :=
          List.count_eq_zero.mpr fun hmem => hb (List.mem_singleton.mp hmem).symm
        rw [hnone, hcount, List.append_nil, Nat.add_zero, ih, if_neg hb]

/-! ### Offsets -/

/-- The bytes of a text before an offset. -/
def bytesBefore (source : String) (offset : Nat) : List UInt8 := (bytesOf source).take offset

/-- **The starts of lines at or before an offset come from the bytes before it**, and all further
starts are behind the offset. -/
theorem starts_split (source : String) (offset : Nat) : ∃ later,
    (ofSource source).starts.toList = 0 :: startsAfterNewlines 0 (bytesBefore source offset) ++ later ∧
      ∀ start ∈ later, offset < start := by
  refine ⟨startsAfterNewlines (0 + (bytesBefore source offset).length)
    ((bytesOf source).drop offset), ?_, fun start hmem => ?_⟩
  · rw [List.cons_append, ← startsAfterNewlines_append, bytesBefore, List.take_append_drop]
    rfl
  · rw [Nat.zero_add, bytesBefore, List.length_take] at hmem
    rcases Nat.le_total offset (bytesOf source).length with hle | hle
    · rw [Nat.min_eq_left hle] at hmem
      exact (bounds_of_mem_starts hmem).1
    · rw [List.drop_eq_nil_of_le hle] at hmem
      cases hmem

theorem length_bytesBefore_le (source : String) (offset : Nat) :
    (bytesBefore source offset).length ≤ offset := by
  unfold bytesBefore
  rw [List.length_take]
  exact Nat.min_le_left _ _

variable (source : String) (offset : Nat)

theorem behindLastNewline_before_le : behindLastNewline (bytesBefore source offset) ≤ offset :=
  behindLastNewline_le.trans (length_bytesBefore_le source offset)

/-- The line that is searched starts behind the last newline. -/
theorem getElem?_starts :
    (ofSource source).starts[(bytesBefore source offset).count newline]? =
      some (behindLastNewline (bytesBefore source offset)) := by
  obtain ⟨later, hsplit, -⟩ := starts_split source offset
  have hcount := @getElem?_starts_count (bytesBefore source offset)
  have hlt := (List.getElem?_eq_some_iff.mp hcount).1
  rw [← Array.getElem?_toList, hsplit, List.getElem?_append_left hlt, hcount]

/-- A line starts at or before an offset if and only if at most as many lines are before it as
there are newlines before the offset. -/
theorem le_iff_of_start {i start : Nat} (h : (ofSource source).starts[i]? = some start) :
    start ≤ offset ↔ i ≤ (bytesBefore source offset).count newline := by
  obtain ⟨later, hsplit, hlater⟩ := starts_split source offset
  rw [← Array.getElem?_toList, hsplit] at h
  have hlength : (0 :: startsAfterNewlines 0 (bytesBefore source offset)).length =
      (bytesBefore source offset).count newline + 1 := by
    rw [List.length_cons, length_startsAfterNewlines]
  rcases Nat.lt_or_ge i ((bytesBefore source offset).count newline + 1) with hi | hi
  · rw [List.getElem?_append_left (by omega)] at h
    have hle : start ≤ offset := by
      rcases List.mem_cons.mp (List.mem_of_getElem? h) with rfl | hmem
      · exact Nat.zero_le _
      · have hbound := (bounds_of_mem_starts hmem).2
        have hshort := length_bytesBefore_le source offset
        omega
    exact ⟨fun _ => Nat.le_of_lt_succ hi, fun _ => hle⟩
  · rw [List.getElem?_append_right (by omega)] at h
    have hlt := hlater start (List.mem_of_getElem? h)
    exact ⟨fun hle => by omega, fun hle => by omega⟩

/-- **The line of an offset is the number of newlines before it**: the search always ends at the
start of that line or behind it. -/
theorem lineOf?_ofSource :
    (ofSource source).lineOf? offset = some ((bytesBefore source offset).count newline) := by
  have hplaces := binarySearch_places (x := offset) (sorted_starts source)
  have hstart := getElem?_starts source offset
  have hbehind := behindLastNewline_before_le source offset
  unfold lineOf?
  cases hresult : binarySearch (ofSource source).starts offset with
  | found line =>
      rw [hresult] at hplaces
      have hle := (le_iff_of_start source offset hplaces).mp (Nat.le_refl _)
      rcases Nat.lt_or_eq_of_le hle with hlt | rfl
      · obtain ⟨hcount, hlast⟩ := Array.getElem?_eq_some_iff.mp hstart
        obtain ⟨hline, hat⟩ := Array.getElem?_eq_some_iff.mp hplaces
        have hordered := getElem_lt_of_lt (sorted_starts source) hcount hlt
        omega
      · rfl
  | missing smaller =>
      rw [hresult] at hplaces
      obtain ⟨hsize, hsmaller⟩ := hplaces
      have hlt := (hsmaller _ _ hstart).mp hbehind
      have heq : smaller = (bytesBefore source offset).count newline + 1 := by
        by_contra hne
        have hnext : (bytesBefore source offset).count newline + 1 < smaller := by omega
        have hat := Array.getElem?_eq_getElem (hnext.trans_le hsize)
        have hle := (le_iff_of_start source offset hat).mp ((hsmaller _ _ hat).mpr hnext)
        omega
      rw [heq]

/-- **Where a 64-bit offset stands.**  Only the column of the largest offset can be no word. -/
theorem location?_ofSource {offset : Nat} (hword : offset < UInt64.size) :
    (ofSource source).location? offset =
      if offset + 1 = UInt64.size ∧ newline ∉ bytesBefore source offset then none
      else some ⟨1 + (bytesBefore source offset).count newline,
        offset - behindLastNewline (bytesBefore source offset) + 1, offset⟩ := by
  have hbehind := behindLastNewline_before_le source offset
  unfold location?
  simp only [lineOf?_ofSource, Option.bind_eq_bind, Option.bind_some, getElem?_starts, hbehind,
    true_and, ← behindLastNewline_eq_zero_iff]
  split_ifs with hcolumn hlast hlast
  · omega
  · rw [Nat.add_comm 1]
  · rfl
  · omega

/-- The line tells where it starts, and the column how far behind that the offset is. -/
theorem offset_eq_of_location? {offset offset' : Nat} {l l' : Location}
    (hword : offset < UInt64.size) (hword' : offset' < UInt64.size)
    (h : (ofSource source).location? offset = some l)
    (h' : (ofSource source).location? offset' = some l') (hline : l.line = l'.line)
    (hcolumn : l.column = l'.column) : offset = offset' := by
  rw [location?_ofSource source hword] at h
  rw [location?_ofSource source hword'] at h'
  split_ifs at h h'
  obtain rfl := Option.some.inj h
  obtain rfl := Option.some.inj h'
  have hcount : (bytesBefore source offset).count newline =
      (bytesBefore source offset').count newline := Nat.add_left_cancel hline
  have hstart := getElem?_starts source offset
  rw [hcount, getElem?_starts source offset'] at hstart
  have hsame := Option.some.inj hstart
  have hle := behindLastNewline_before_le source offset
  have hle' := behindLastNewline_before_le source offset'
  dsimp only at hcolumn
  omega

/-- **Lines and columns invert offsets.**  For every text and every 64-bit offset, also past the
end, the search finds a line.  The line from one is the number of newlines before the offset plus
one, the column is the distance from the byte behind the last of them plus one, and line and column
determine the offset.  The largest offset alone can have no place, and only in a text without
newlines before it, where its column would be `2 ^ 64`. -/
theorem lines_invert_offsets (offset : UInt64) :
    (∃ line, (ofSource source).lineOf? offset.toNat = some line) ∧
      (ofSource source).location? offset.toNat =
        (if offset.toNat + 1 = UInt64.size ∧ newline ∉ bytesBefore source offset.toNat then none
        else some ⟨1 + (bytesBefore source offset.toNat).count newline,
          offset.toNat - behindLastNewline (bytesBefore source offset.toNat) + 1, offset.toNat⟩) ∧
      ∀ (offset' : UInt64) (l l' : Location),
        (ofSource source).location? offset.toNat = some l →
          (ofSource source).location? offset'.toNat = some l' →
            l.line = l'.line → l.column = l'.column → offset = offset' := by
  refine ⟨⟨_, lineOf?_ofSource source _⟩, location?_ofSource source offset.toNat_lt,
    fun offset' l l' hl hl' hline hcolumn => UInt64.toNat_inj.mp ?_⟩
  exact offset_eq_of_location? source offset.toNat_lt offset'.toNat_lt hl hl' hline hcolumn

/-- The largest offset in the empty text has no place: its column would be `2 ^ 64`. -/
theorem no_place_for_largest_offset :
    ¬ ∃ l, (ofSource "").location? (18446744073709551615 : UInt64).toNat = some l := by
  rintro ⟨l, hl⟩
  rw [location?_ofSource "" (UInt64.toNat_lt _), if_pos ⟨rfl, List.not_mem_nil⟩] at hl
  cases hl

end LineMap

end AspectLang
