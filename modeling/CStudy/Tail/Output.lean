import CStudy.Foundation.Ring
import CStudy.Foundation.Text
import CStudy.Tail.Model

/-! What `tail1` prints. The slot that is to be written next is one of the ten that are printed. So
where there are ten lines or more, the last line has to be without a newline for ten of them to be
left, and where there are fewer, the slots that have not been written are printed as they are. -/
namespace CStudy.Tail
open CStudy.Foundation

def newline : UInt8 := 10

/-- The blocks are those of a ring with `cur` as the current one. -/
structure Turned (lines : List (List UInt8)) (index : ℕ) (others : List (List UInt8))
    (cur : List UInt8) : Prop where
  ring : Ring.At lines index others cur
  ten : lines.length = 10
  size : ∀ block ∈ cur::others, block.length = 4096

section Writing
variable {lines others : List (List UInt8)} {index : ℕ} {cur front back block : List UInt8}

/-- A write behind the bytes the current block begins with. -/
theorem Turned.store (h : Turned lines index others (front++back)) (hfront : front.length < 4096)
    (x : UInt8) : ∃ lines', Tail.store lines index front.length x = some lines' ∧
      Turned lines' index others (front++x::back.drop 1) := by
  have hsize := h.size _ List.mem_cons_self
  rw [List.length_append] at hsize
  have hback : back ≠ [] := List.ne_nil_of_length_pos (by omega)
  refine ⟨lines.set index (front++x::back.drop 1),?_,h.ring.set _,?_,?_⟩
  · simp only [Tail.store,h.ring.getElem?,Option.bind_eq_bind,Option.bind_some,
      Memory.write_append rfl hback]
    rfl
  · rw [List.length_set,h.ten]
  · intro block hblock
    rcases List.mem_cons.mp hblock with rfl | hmem
    · simp only [List.length_append,List.length_cons,List.length_drop]
      omega
    · exact h.size block (List.mem_cons_of_mem _ hmem)

theorem Turned.next (h : Turned lines index (block::others) cur) :
    Turned lines ((index+1)%10) (others++[cur]) block := by
  refine ⟨?_,h.ten,?_⟩
  · have hnext := h.ring.next
    rwa [h.ten] at hnext
  · intro b hb
    refine h.size b ?_
    simp only [List.mem_cons,List.mem_append,List.not_mem_nil,or_false] at hb ⊢
    tauto

end Writing

/-- The rows that are complete and the bytes behind them have been read. -/
structure Filled (slots : Slots) (rows : List (List UInt8)) (rest : List UInt8) (r : Reader) :
    Prop where
  line : r.line = rows.length
  index : r.index = rows.length%10
  pos : r.pos = rest.length
  ring : ∃ blocks back, blocks.map Memory.string = rows.map some ∧
    Turned r.lines r.index ((slots.blocks.drop 1++blocks).drop blocks.length) (rest++back)

section Reading
variable {slots : Slots} {rows : List (List UInt8)} {rest : List UInt8} {r : Reader} {c : UInt8}

theorem toChar_byte (c : UInt8) : toChar c.toNat = c := by
  have hput := fputc_byte c []
  simpa [fputc,toChar] using hput

theorem toNat_eq_newlineChar : (c.toNat : ℤ) = newlineChar ↔ c = newline := by
  rw [newlineChar,newline,← UInt8.toNat_inj]
  norm_cast

theorem put_newline (r : Reader) : r.put newline.toNat =
    (store r.lines r.index r.pos newline).bind fun lines => (increment r.line).bind fun line =>
      (store lines r.index (r.pos+1) 0).bind fun lines => some ⟨lines,(r.index+1)%10,0,line⟩ := by
  have hnewline : (newline.toNat : ℤ) = newlineChar := toNat_eq_newlineChar.mpr rfl
  simp only [Reader.put,toChar_byte,if_pos hnewline]
  rfl

theorem put_of_ne (r : Reader) (hc : c ≠ newline) : r.put c.toNat =
    (store r.lines r.index r.pos c).bind fun lines => some ⟨lines,r.index,r.pos+1,r.line⟩ := by
  have hne : ¬ (c.toNat : ℤ) = newlineChar := fun h => hc (toNat_eq_newlineChar.mp h)
  simp only [Reader.put,toChar_byte,if_neg hne]
  rfl

theorem filled_start (slots : Slots) : Filled slots [] [] ⟨slots.blocks,0,0,0⟩ := by
  have hsize := slots.size
  have hten := slots.ten
  refine ⟨rfl,rfl,rfl,[],?_⟩
  cases hblocks : slots.blocks with
  | nil => simp [hblocks] at hten
  | cons block blocks =>
    rw [hblocks] at hsize hten
    refine ⟨block,rfl,?_,hten,?_⟩
    · simpa using Ring.at_zero block blocks
    · simpa using hsize

/-- A byte that is not a newline. -/
theorem Filled.byte (h : Filled slots rows rest r) (hc : c ≠ newline) (hrest : rest.length < 4096) :
    ∃ r', r.put c.toNat = some r' ∧ Filled slots rows (rest++[c]) r' := by
  obtain ⟨blocks,back,hblocks,hturned⟩ := h.ring
  obtain ⟨lines,hstore,hlines⟩ := hturned.store hrest c
  refine ⟨⟨lines,r.index,r.pos+1,r.line⟩,?_,h.line,h.index,?_,blocks,back.drop 1,hblocks,?_⟩
  · rw [put_of_ne r hc,h.pos,hstore]
    rfl
  · simp [h.pos]
  · simpa using hlines

/-- The others of a ring, when the block that was current has been added to them. -/
theorem drop_concat (slots : Slots) (blocks : List (List UInt8)) (block : List UInt8) :
    ∃ oldest, (slots.blocks.drop 1++blocks).drop blocks.length =
      oldest::(slots.blocks.drop 1++blocks).drop (blocks.length+1) ∧
      (slots.blocks.drop 1++(blocks++[block])).drop (blocks++[block]).length =
        (slots.blocks.drop 1++blocks).drop (blocks.length+1)++[block] := by
  have hten := slots.ten
  have hlen : (slots.blocks.drop 1++blocks).length = blocks.length+9 := by
    rw [List.length_append,List.length_drop]
    omega
  have hlt : blocks.length < (slots.blocks.drop 1++blocks).length := by omega
  refine ⟨_,List.drop_eq_getElem_cons hlt,?_⟩
  rw [List.length_append,List.length_singleton,← List.append_assoc,
    List.drop_append_of_le_length (by omega)]

/-- A newline, if the number of lines is not the largest `int`. -/
theorem Filled.complete (h : Filled slots rows rest r) (hrest : rest.length+1 < 4096)
    (hnul : 0 ∉ rest) (hline : rows.length+1 < 2^31) :
    ∃ r', r.put newline.toNat = some r' ∧ Filled slots (rows++[rest++[newline]]) [] r' := by
  obtain ⟨blocks,back,hblocks,hturned⟩ := h.ring
  obtain ⟨lines₁,hstore₁,hlines₁⟩ := hturned.store (by omega) newline
  rw [List.append_cons] at hlines₁
  have hlen : (rest++[newline]).length = rest.length+1 := by simp
  obtain ⟨lines₂,hstore₂,hlines₂⟩ := hlines₁.store (by omega) 0
  rw [hlen] at hstore₂
  have hincrement : increment r.line = some (r.line+1) := by
    rw [increment,if_pos]
    rw [h.line]
    omega
  obtain ⟨oldest,holdest,hothers⟩ := drop_concat slots blocks
    (rest++[newline]++0::(back.drop 1).drop 1)
  rw [holdest] at hlines₂
  refine ⟨⟨lines₂,(r.index+1)%10,0,r.line+1⟩,?_,?_,?_,rfl,
    blocks++[rest++[newline]++0::(back.drop 1).drop 1],oldest,?_,?_⟩
  · rw [put_newline,h.pos,hstore₁,Option.bind_some,hincrement,Option.bind_some,hstore₂]
    rfl
  · simp [h.line]
  · simp [h.index]
  · have hrow : 0 ∉ rest++[newline] := by simp [hnul,newline]
    rw [List.map_append,List.map_append,hblocks,List.map_singleton,List.map_singleton,
      Memory.string_append_cons hrow]
  · rw [hothers]
    exact hlines₂.next

end Reading

section Loop
variable {slots : Slots} {data : List UInt8}

theorem readLoop_opened (data : List UInt8) (r : Reader) :
    readLoop (.opened data false) r = data.foldlM (fun r c => r.put c.toNat) r := by
  induction data generalizing r with
  | nil => rw [readLoop,File.fgetc_opened_nil,if_pos rfl]; rfl
  | cons c data ih =>
    rw [readLoop,File.fgetc_opened_cons,if_neg (byte_ne_endOfFile c),List.foldlM_cons]
    congr 1
    funext r'
    exact ih r'

/-- There is room for every row in a block. -/
def Fits (data : List UInt8) : Prop :=
  (∀ row ∈ (Text.splitRows newline data).1, row.length ≤ 4094) ∧
    (Text.splitRows newline data).2.length ≤ 4094

theorem Fits.newline_lt (h : Fits (data++[newline])) :
    (Text.splitRows newline data).2.length < 4094 := by
  have hlast := h.1 ((Text.splitRows newline data).2++[newline]) (by simp [Text.splitRows_newline])
  rw [List.length_append,List.length_singleton] at hlast
  exact hlast

theorem Fits.of_concat {c : UInt8} (h : Fits (data++[c])) : Fits data := by
  by_cases hc : c = newline
  · subst hc
    refine ⟨fun row hrow => h.1 row ?_,h.newline_lt.le⟩
    simp [Text.splitRows_newline,hrow]
  · simp only [Fits,Text.splitRows_of_ne hc,List.length_append,List.length_singleton] at h
    exact ⟨h.1,by omega⟩

/-- The whole file is read, if the number of its newlines is an `int`. -/
theorem foldlM_put (slots : Slots) (hfits : Fits data) (hnul : 0 ∉ data)
    (hcount : data.count newline < 2^31) :
    ∃ r, data.foldlM (fun r c => r.put c.toNat) ⟨slots.blocks,0,0,0⟩ = some r ∧
      Filled slots (Text.splitRows newline data).1 (Text.splitRows newline data).2 r := by
  induction data using List.reverseRecOn with
  | nil => exact ⟨_,rfl,filled_start slots⟩
  | append_singleton data c ih =>
    rw [List.mem_append,List.mem_singleton,not_or] at hnul
    have hcount' : data.count newline < 2^31 :=
      (List.Sublist.count_le newline (List.sublist_append_left _ _)).trans_lt hcount
    obtain ⟨r,hr,hfilled⟩ := ih hfits.of_concat hnul.1 hcount'
    by_cases hc : c = newline
    · subst hc
      have hnul' : 0 ∉ (Text.splitRows newline data).2 := by
        intro hmem
        have hflat : (Text.splitRows newline data).1.flatten++_ = data := Text.flatten_splitRows
        apply hnul.1
        rw [← hflat]
        exact List.mem_append_right _ hmem
      rw [List.count_append,List.count_singleton_self,← Text.length_splitRows] at hcount
      have hroom := hfits.newline_lt
      obtain ⟨r',hput,hfilled'⟩ := hfilled.complete (by omega) hnul' hcount
      refine ⟨r',by simp [hr,hput],?_⟩
      rwa [Text.splitRows_newline]
    · have hroom := hfits.of_concat.2
      obtain ⟨r',hput,hfilled'⟩ := hfilled.byte hc (by omega)
      refine ⟨r',by simp [hr,hput],?_⟩
      rwa [Text.splitRows_of_ne hc]

/-- With more newlines than that, counting them overflows. -/
theorem foldlM_put_overflow (slots : Slots) (hfits : Fits data) (hnul : 0 ∉ data)
    (hcount : 2^31 ≤ data.count newline) :
    data.foldlM (fun r c => r.put c.toNat) (⟨slots.blocks,0,0,0⟩ : Reader) = none := by
  induction data using List.reverseRecOn with
  | nil => simp at hcount
  | append_singleton data c ih =>
    rw [List.mem_append,List.mem_singleton,not_or] at hnul
    by_cases hbefore : 2^31 ≤ data.count newline
    · simp [ih hfits.of_concat hnul.1 hbefore]
    · obtain ⟨r,hr,hfilled⟩ := foldlM_put slots hfits.of_concat hnul.1 (by omega)
      rw [List.count_append] at hcount
      have hc : c = newline := by
        by_contra hne
        have hzero : [c].count newline = 0 := List.count_eq_zero_of_not_mem (by simpa using Ne.symm hne)
        omega
      subst hc
      have hincrement : increment r.line = none := by
        rw [List.count_singleton_self] at hcount
        rw [increment,if_neg]
        rw [hfilled.line,Text.length_splitRows]
        omega
      have hput : r.put newline.toNat = none := by
        rw [put_newline,hincrement]
        simp
      simp [hr,hput]

end Loop

section Printing
variable {lines blocks rows : List (List UInt8)} {block : List UInt8}

theorem printLines_eq (start : ℕ) (hten : lines.length = 10) :
    printLines lines start = ((lines.rotate start).mapM Memory.string).map List.flatten := by
  have hslots : (List.range 10).map (fun i => lines[(start+i)%10]?) = (lines.rotate start).map some := by
    apply List.ext_getElem
    · simp [hten]
    · intro i h₁ h₂
      have hlt : (start+i)%10 < lines.length := by omega
      simp [List.getElem_rotate,hten,Nat.add_comm start i]
  have hmap : (List.range 10).mapM (fun i => (lines[(start+i)%10]?).bind Memory.string) =
      ((List.range 10).map fun i => lines[(start+i)%10]?).mapM (fun b => b.bind Memory.string) := by
    rw [List.mapM_map]
    rfl
  rw [printLines,hmap,hslots,List.mapM_map]
  rfl

theorem mapM_string_eq_some : blocks.mapM Memory.string = some rows ↔
    blocks.map Memory.string = rows.map some := by
  induction blocks generalizing rows with
  | nil => cases rows <;> simp
  | cons block blocks ih =>
    cases rows with
    | nil => simp [Option.bind_eq_some_iff]
    | cons row rows => simp [Option.bind_eq_some_iff,ih]

theorem string_eq_nil : Memory.string block = some [] ↔ block.head? = some 0 := by
  cases block with
  | nil => simp [Memory.string]
  | cons c block => by_cases hc : c = 0 <;> simp [Memory.string,hc]

/-- Some blocks print nothing exactly if each of them begins with a terminator. -/
theorem mapM_string_flatten_eq_nil : (blocks.mapM Memory.string).map List.flatten = some [] ↔
    ∀ block ∈ blocks, block.head? = some 0 := by
  induction blocks with
  | nil => simp
  | cons block blocks ih =>
    rw [List.forall_mem_cons,← string_eq_nil,← ih,List.mapM_cons]
    cases Memory.string block with
    | none => simp
    | some s =>
      cases blocks.mapM Memory.string with
      | none => simp
      | some rows => simp

end Printing

section Output
variable {slots : Slots} {rows : List (List UInt8)} {rest : List UInt8} {r : Reader}

/-- `main` behind its loop. -/
def finish (r : Reader) : Option (List UInt8) :=
  (store r.lines r.index r.pos 0).bind fun lines =>
    printLines lines (if r.line < 10 then 0 else r.index+1)

/-- Fewer than ten newlines: the slots are printed from the first one on. -/
theorem Filled.finish_of_lt (h : Filled slots rows rest r) (hnul : 0 ∉ rest) (hrest : rest.length ≤ 4094)
    (hlt : rows.length < 10) :
    finish r = (((slots.blocks.drop (rows.length+1)).mapM Memory.string).map List.flatten).map
      fun stale => rows.flatten++rest++stale := by
  obtain ⟨blocks,back,hblocks,hturned⟩ := h.ring
  obtain ⟨lines,hstore,hlines⟩ := hturned.store (by omega) 0
  have hlen : blocks.length = rows.length := by simpa using congrArg List.length hblocks
  have hten := slots.ten
  have hothers : (slots.blocks.drop 1++blocks).drop blocks.length =
      slots.blocks.drop (rows.length+1)++blocks := by
    rw [List.drop_append_of_le_length,List.drop_drop,hlen,Nat.add_comm 1]
    rw [List.length_drop]
    omega
  have hring := hlines.ring
  rw [hothers,h.index,Nat.mod_eq_of_lt hlt] at hring
  have heq := hring.eq_append hlen
  rw [finish,h.pos,hstore,Option.bind_some,if_pos (h.line.trans_lt hlt),printLines_eq 0 hlines.ten,
    List.rotate_zero,heq,List.mapM_append,mapM_string_eq_some.mpr hblocks,List.mapM_cons,
    Memory.string_append_cons hnul]
  cases (slots.blocks.drop (rows.length+1)).mapM Memory.string with
  | none => rfl
  | some stale => simp

/-- Ten newlines or more: the slots are printed from the oldest one on. -/
theorem Filled.finish_of_le (h : Filled slots rows rest r) (hnul : 0 ∉ rest) (hrest : rest.length ≤ 4094)
    (hle : 10 ≤ rows.length) :
    finish r = some ((rows.drop (rows.length-9)).flatten++rest) := by
  obtain ⟨blocks,back,hblocks,hturned⟩ := h.ring
  obtain ⟨lines,hstore,hlines⟩ := hturned.store (by omega) 0
  have hlen : blocks.length = rows.length := by simpa using congrArg List.length hblocks
  have hten := slots.ten
  have hothers : (slots.blocks.drop 1++blocks).drop blocks.length = blocks.drop (rows.length-9) := by
    have hnine : (slots.blocks.drop 1).length = 9 := by
      rw [List.length_drop]
      omega
    rw [List.drop_append,List.drop_of_length_le (by omega),hnine,hlen,List.nil_append]
  have hrows : (blocks.drop (rows.length-9)).map Memory.string = (rows.drop (rows.length-9)).map some := by
    rw [List.map_drop,hblocks,List.map_drop]
  have hring := hlines.ring
  rw [hothers] at hring
  have hline : ¬ r.line < 10 := by
    rw [h.line]
    omega
  rw [finish,h.pos,hstore,Option.bind_some,if_neg hline,printLines_eq _ hlines.ten,hring.rotate,
    List.mapM_append,mapM_string_eq_some.mpr hrows,List.mapM_cons,Memory.string_append_cons hnul]
  simp

theorem main_eq (slots : Slots) (data : List UInt8) : main slots (some (.opened data false)) =
    (data.foldlM (fun (r : Reader) c => r.put c.toNat) ⟨slots.blocks,0,0,0⟩).bind finish := by
  rw [← readLoop_opened]
  rfl

/-- A file with fewer than ten newlines has at most ten rows. -/
theorem lastRows_of_lt {data : List UInt8} (h : data.count newline < 10) :
    ((Text.rows newline data).drop ((Text.rows newline data).length-10)).flatten = data := by
  have hlen : (Text.rows newline data).length ≤ 10 := by
    rw [Text.rows,List.length_append,Text.length_splitRows]
    split_ifs <;> simp <;> omega
  rw [Nat.sub_eq_zero_of_le hlen,List.drop_zero,Text.flatten_rows]

/-- With ten newlines or more, nine of the last ten rows and the bytes behind them are the last ten
rows exactly if there are such bytes. -/
theorem lastRows_of_le {data : List UInt8} (h : 10 ≤ data.count newline) :
    ((Text.splitRows newline data).1.drop ((Text.splitRows newline data).1.length-9)).flatten++
        (Text.splitRows newline data).2 =
      ((Text.rows newline data).drop ((Text.rows newline data).length-10)).flatten ↔
      (Text.splitRows newline data).2 ≠ [] := by
  have hlen : (Text.splitRows newline data).1.length = data.count newline := Text.length_splitRows
  rw [Text.rows]
  split_ifs with hrest
  · -- the oldest of the ten rows has been written over
    have hlt : (Text.splitRows newline data).1.length-10 < (Text.splitRows newline data).1.length := by
      omega
    have hne : (Text.splitRows newline data).1[(Text.splitRows newline data).1.length-10] ≠ [] :=
      Text.ne_nil_of_mem_splitRows (List.getElem_mem hlt)
    have hnext : (Text.splitRows newline data).1.length-10+1 =
        (Text.splitRows newline data).1.length-9 := by omega
    rw [List.append_nil,List.drop_eq_getElem_cons hlt,hnext,hrest,List.append_nil,List.flatten_cons]
    refine iff_of_false ?_ (not_not.mpr rfl)
    intro heq
    exact hne (List.self_eq_append_left.mp heq)
  · refine iff_of_true ?_ hrest
    have hnine : ((Text.splitRows newline data).1++[(Text.splitRows newline data).2]).length-10 =
        (Text.splitRows newline data).1.length-9 := by
      rw [List.length_append,List.length_singleton]
      omega
    rw [hnine,List.drop_append_of_le_length (by omega),List.flatten_concat]

end Output

/-- For every file whose rows fit into the blocks, and whatever these have held before: the last ten
rows are printed exactly if the number of newlines is an `int` and either there are ten newlines or
more and the file does not end with one, or there are fewer and the slots that are left over begin
with a terminator. -/
theorem main_prints_last_iff (slots : Slots) (data : List UInt8)
    (hrows : ∀ row ∈ Text.rows newline data, row.length ≤ 4094) (hnul : 0 ∉ data) :
    main slots (some (.opened data false)) =
        some ((Text.rows newline data).drop ((Text.rows newline data).length-10)).flatten ↔
      data.count newline < 2^31 ∧
        if data.count newline < 10 then
          ∀ block ∈ slots.blocks.drop (data.count newline+1), block.head? = some 0
        else data.getLast? ≠ some newline := by
  have hfits : Fits data := Text.length_le_of_rows hrows
  have hlen : (Text.splitRows newline data).1.length = data.count newline := Text.length_splitRows
  have hflat : (Text.splitRows newline data).1.flatten++(Text.splitRows newline data).2 = data :=
    Text.flatten_splitRows
  by_cases hcount : data.count newline < 2^31
  · rw [and_iff_right hcount]
    obtain ⟨r,hr,hfilled⟩ := foldlM_put slots hfits hnul hcount
    have hrest : 0 ∉ (Text.splitRows newline data).2 := by
      intro hmem
      rw [← hflat] at hnul
      exact hnul (List.mem_append_right _ hmem)
    rw [main_eq,hr,Option.bind_some]
    split_ifs with hlt
    · rw [lastRows_of_lt hlt,hfilled.finish_of_lt hrest hfits.2 (by omega),hflat,hlen,
        ← mapM_string_flatten_eq_nil]
      cases ((slots.blocks.drop (data.count newline+1)).mapM Memory.string).map List.flatten with
      | none => simp
      | some stale => simp
    · have hne : data ≠ [] := by
        rintro rfl
        simp at hlt
      rw [hfilled.finish_of_le hrest hfits.2 (by omega),Option.some_inj,
        lastRows_of_le (not_lt.mp hlt),Ne,Text.splitRows_snd_eq_nil hne]
  · rw [main_eq,foldlM_put_overflow slots hfits hnul (not_lt.mp hcount)]
    exact iff_of_false (by simp) fun h => hcount h.1

/-- Ten blocks that are filled with one byte. -/
def filledSlots (x : UInt8) : Slots where
  blocks := List.replicate 10 (List.replicate 4096 x)
  ten := List.length_replicate
  size block hblock := by
    rw [List.eq_of_mem_replicate hblock]
    exact List.length_replicate

/-- Two lines, and blocks that have been cleared. -/
theorem main_prints_last_iff_test :
    main (filledSlots 0) (some (.opened [97,10,98,10] false)) = some [97,10,98,10] := by
  refine (main_prints_last_iff (filledSlots 0) [97,10,98,10] (by decide) (by decide)).mpr
    ⟨by decide,?_⟩
  rw [if_pos (by decide)]
  intro block hblock
  have hmem : block ∈ (filledSlots 0).blocks := List.mem_of_mem_drop hblock
  rw [List.eq_of_mem_replicate hmem]
  rfl

/-- Of ten empty lines the first one is not printed. -/
theorem main_loses_line :
    main (filledSlots 0) (some (.opened (List.replicate 10 10) false)) = some (List.replicate 9 10) ∧
      ((Text.rows newline (List.replicate 10 10)).drop
        ((Text.rows newline (List.replicate 10 10)).length-10)).flatten = List.replicate 10 10 := by
  have hfits : Fits (List.replicate 10 10) := Text.length_le_of_rows (by decide)
  obtain ⟨r,hr,hfilled⟩ := foldlM_put (filledSlots 0) hfits (by decide) (by decide)
  refine ⟨?_,by decide⟩
  rw [main_eq,hr,Option.bind_some,hfilled.finish_of_le (by decide) (by decide) (by decide)]
  decide

end CStudy.Tail
