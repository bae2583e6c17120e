import MongoUtils.IpLib.Ip2Location

/-!
# How the loaders cut a file

`LoadDict` reads a file with `std::getline`, and `IP2Location_init` with `fgets` if it has a
callback. Both hand on all of the file but the newlines that `std::getline` takes away, and each
of them cuts it in the one way that its rules allow.

* `fileLines_eq_iff`: the lines, from which the file can be put together again up to a newline at
  its end;
* `Piece`, `Ended`: what one call of `fgets` can deliver, and when it stops before the end;
* `pieces_eq_iff`: what `fgets` delivers;
* `LinesFit`: every line fits into the buffer with its newline. Exactly then `fgets` delivers the
  lines, each as a whole (`pieces_eq_rawLines_iff`).
-/

namespace MongoUtils
namespace IpLib

variable {content l p buf rest : Str} {ls ps : List Str}

/-! ### Lines -/

/-- A file with these lines. -/
def unlines (lines : List Str) : Str := lines.flatMap (· ++ [10])

theorem unlines_cons (l : Str) (ls : List Str) : unlines (l :: ls) = l ++ 10 :: unlines ls := by
  simp [unlines]

theorem fileLines_unlines_append (h : ∀ l ∈ ls, 10 ∉ l) (rest : Str) :
    fileLines (unlines ls ++ rest) = ls ++ fileLines rest := by
  induction ls with
  | nil => rfl
  | cons l ls ih =>
    rw [List.forall_mem_cons] at h
    rw [unlines_cons, List.append_assoc, List.cons_append, fileLines_newline h.1, ih h.2,
      List.cons_append]

/-- Some lines and the newlines behind them, and the last line, which has no newline. -/
theorem exists_unlines (content : Str) :
    ∃ ls last, (∀ l ∈ ls, 10 ∉ l) ∧ 10 ∉ last ∧ content = unlines ls ++ last := by
  induction content using text_induction with
  | last l hl => exact ⟨[], l, List.forall_mem_nil _, hl, rfl⟩
  | newline l rest hl ih =>
    obtain ⟨ls, last, hls, hlast, rfl⟩ := ih
    refine ⟨l :: ls, last, List.forall_mem_cons.2 ⟨hl, hls⟩, hlast, ?_⟩
    rw [unlines_cons, List.append_assoc, List.cons_append]

/-- **What `std::getline` delivers**: the lines of which the file is made, with a newline behind
each, which may be missing behind the last one if that is not empty. -/
theorem fileLines_eq_iff :
    fileLines content = ls ↔ (∀ l ∈ ls, 10 ∉ l) ∧ (content = unlines ls ∨
      ∃ init last, ls = init ++ [last] ∧ last ≠ [] ∧ content = unlines init ++ last) := by
  constructor
  · rintro rfl
    refine ⟨fun l hl => newline_notMem_fileLines hl, ?_⟩
    obtain ⟨init, last, hinit, hlast, rfl⟩ := exists_unlines content
    rw [fileLines_unlines_append hinit, fileLines_last hlast]
    by_cases hnil : last = []
    · exact Or.inl (by simp [hnil])
    · exact Or.inr ⟨init, last, by rw [if_neg hnil], hnil, rfl⟩
  · rintro ⟨hmem, rfl | ⟨init, last, rfl, hnil, rfl⟩⟩
    · simpa [fileLines, fileLinesFrom] using fileLines_unlines_append hmem []
    · rw [List.forall_mem_append, List.forall_mem_singleton] at hmem
      rw [fileLines_unlines_append hmem.1, fileLines_last hmem.2, if_neg hnil]

/-! ### Pieces -/

/-- What one call of `fgets` can deliver. -/
structure Piece (p : Str) : Prop where
  ne_nil : p ≠ []
  length_lt : p.length < bufSize
  newline : 10 ∉ p.dropLast

/-- `fgets` stops here, whatever follows. -/
def Ended (p : Str) : Prop := p.getLast? = some 10 ∨ p.length + 1 = bufSize

/-- The bytes up to where `fgets` stops are one piece. -/
theorem fgetsFrom_ended (buf : Str) (hne : p ≠ []) (hnew : 10 ∉ p.dropLast)
    (hlen : buf.length + p.length < bufSize) (hend : Ended (buf ++ p)) (rest : Str) :
    fgetsFrom buf (p ++ rest) = (buf ++ p) :: pieces rest := by
  induction p generalizing buf with
  | nil => exact absurd rfl hne
  | cons c p ih =>
    by_cases hp : p = []
    · subst hp
      have hstop : c = 10 ∨ buf.length + 2 = bufSize := by
        unfold Ended at hend
        simpa using hend
      rw [List.singleton_append, fgetsFrom, if_pos hstop, pieces]
    · rw [List.dropLast_cons_of_ne_nil hp, List.mem_cons, not_or] at hnew
      have hpos := List.length_pos_of_ne_nil hp
      rw [List.length_cons] at hlen
      have hgo : ¬ (c = 10 ∨ buf.length + 2 = bufSize) := by
        rintro (rfl | h)
        · exact hnew.1 rfl
        · omega
      have happ : buf ++ [c] ++ p = buf ++ c :: p := by simp
      have hih := ih (buf ++ [c]) hp hnew.2
        (by rw [List.length_append, List.length_singleton]; omega) (by rwa [happ])
      rw [List.cons_append, fgetsFrom, if_neg hgo, hih, happ]

/-- The last bytes of a file, if they fit into the buffer. -/
theorem fgetsFrom_short (hmem : 10 ∉ p) (hlen : buf.length + p.length < bufSize) :
    fgetsFrom buf p = if buf ++ p = [] then [] else [buf ++ p] := by
  induction p generalizing buf with
  | nil => rw [fgetsFrom, List.append_nil]
  | cons c p ih =>
    simp only [List.mem_cons, not_or] at hmem
    rw [List.length_cons] at hlen
    by_cases hfull : buf.length + 2 = bufSize
    · obtain rfl : p = [] := List.length_eq_zero_iff.1 (by omega)
      simp [fgetsFrom, hfull]
    · rw [fgetsFrom, if_neg (by simp [Ne.symm hmem.1, hfull]),
        ih hmem.2 (by rw [List.length_append, List.length_singleton]; omega)]
      simp

theorem notMem_of_not_ended (hnew : 10 ∉ p.dropLast) (hend : ¬ Ended p) : 10 ∉ p := by
  unfold Ended at hend
  intro hmem
  rcases List.eq_nil_or_concat p with rfl | ⟨q, c, rfl⟩
  · cases hmem
  · rw [List.concat_eq_append] at *
    rw [List.dropLast_concat] at hnew
    rw [List.mem_append, List.mem_singleton] at hmem
    rcases hmem with hmem | rfl
    · exact hnew hmem
    · simp at hend

/-- The last piece of a file. -/
theorem pieces_of_piece (hp : Piece p) : pieces p = [p] := by
  by_cases hend : Ended p
  · have h := fgetsFrom_ended [] hp.ne_nil hp.newline (by simpa using hp.length_lt) hend []
    rwa [List.append_nil, List.nil_append] at h
  · rw [pieces, fgetsFrom_short (notMem_of_not_ended hp.newline hend)
      (by simpa using hp.length_lt), List.nil_append, if_neg hp.ne_nil]

theorem mem_dropLast_cons {q : Str} (h : q ∈ (p :: ps).dropLast) : q = p ∨ q ∈ ps.dropLast := by
  cases ps with
  | nil => cases h
  | cons r ps => rwa [List.dropLast_cons_of_ne_nil (List.cons_ne_nil r ps), List.mem_cons] at h

/-- Nothing of a file gets lost, and each piece but the last ends where `fgets` stops. -/
theorem fgetsFrom_spec (buf : Str) (hnew : 10 ∉ buf) (hlen : buf.length + 1 < bufSize) (content : Str) :
    (fgetsFrom buf content).flatten = buf ++ content ∧
      (∀ p ∈ fgetsFrom buf content, Piece p) ∧
      ∀ p ∈ (fgetsFrom buf content).dropLast, Ended p := by
  -- `buf` is what has been read of the next piece.
  induction content generalizing buf with
  | nil =>
    rw [fgetsFrom]
    by_cases hnil : buf = []
    · simp [hnil]
    · rw [if_neg hnil, List.forall_mem_singleton]
      refine ⟨by simp, ⟨hnil, by omega, fun h => hnew (List.mem_of_mem_dropLast h)⟩, ?_⟩
      exact fun p hp => by cases hp
  | cons c rest ih =>
    have hlen' : (buf ++ [c]).length = buf.length + 1 := by simp
    rw [fgetsFrom]
    by_cases hstop : c = 10 ∨ buf.length + 2 = bufSize
    · obtain ⟨hflat, hpiece, hended⟩ := ih [] (by simp) (by decide)
      rw [if_pos hstop]
      refine ⟨by simp [hflat], List.forall_mem_cons.2 ⟨⟨by simp, by omega, by simpa⟩, hpiece⟩, ?_⟩
      intro p hp
      rcases mem_dropLast_cons hp with rfl | hp
      · exact hstop.imp (fun h => by simp [h]) fun h => by omega
      · exact hended p hp
    · rw [not_or] at hstop
      obtain ⟨hflat, hpiece, hended⟩ := ih (buf ++ [c])
        (by simp [hnew, Ne.symm hstop.1]) (by omega)
      rw [if_neg (not_or.2 hstop)]
      exact ⟨by simp [hflat], hpiece, hended⟩

/-- **What `fgets` delivers**: the only way to cut the file into pieces of which each but the last
ends where `fgets` stops. -/
theorem pieces_eq_iff :
    pieces content = ps ↔
      ps.flatten = content ∧ (∀ p ∈ ps, Piece p) ∧ ∀ p ∈ ps.dropLast, Ended p := by
  constructor
  · rintro rfl
    exact fgetsFrom_spec [] (by simp) (by decide) content
  · rintro ⟨rfl, hpiece, hended⟩
    induction ps with
    | nil => rfl
    | cons p ps ih =>
      rw [List.forall_mem_cons] at hpiece
      rw [List.flatten_cons]
      by_cases hps : ps = []
      · rw [hps, List.flatten_nil, List.append_nil, pieces_of_piece hpiece.1]
      · rw [List.dropLast_cons_of_ne_nil hps, List.forall_mem_cons] at hended
        rw [pieces, fgetsFrom_ended [] hpiece.1.ne_nil hpiece.1.newline
          (by simpa using hpiece.1.length_lt) hended.1, ih hpiece.2 hended.2, List.nil_append]

/-- **The two ways to read a file, exactly.** `std::getline` delivers the lines, and no others; the
file is these lines with their newlines, where the last one may be missing. `fgets` delivers pieces
that are the file again when they are put together, each of at most 1023 bytes, with a newline at
its end only; every piece but the last ends in a newline or is full, and no other way to cut the
file has all this. -/
theorem readers_exact (content : Str) (ls ps : List Str) :
    (fileLines content = ls ↔ (∀ l ∈ ls, 10 ∉ l) ∧ (content = unlines ls ∨
      ∃ init last, ls = init ++ [last] ∧ last ≠ [] ∧ content = unlines init ++ last)) ∧
    (pieces content = ps ↔
      ps.flatten = content ∧ (∀ p ∈ ps, p ≠ [] ∧ p.length < bufSize ∧ 10 ∉ p.dropLast) ∧
        ∀ p ∈ ps.dropLast, p.getLast? = some 10 ∨ p.length + 1 = bufSize) := by
  refine ⟨fileLines_eq_iff, ?_⟩
  have hpiece : ∀ p : Str, Piece p ↔ p ≠ [] ∧ p.length < bufSize ∧ 10 ∉ p.dropLast :=
    fun p => ⟨fun h => ⟨h.ne_nil, h.length_lt, h.newline⟩, fun h => ⟨h.1, h.2.1, h.2.2⟩⟩
  rw [pieces_eq_iff]
  simp only [hpiece, Ended]

/-! ### Lines that fit into the buffer -/

/-- A line with its newline. -/
def withNewline (l : Str) : Str := l ++ [10]

/-- The lines of a file, each with the newline that ends it; the last one may have none. -/
def rawLines : Str → List Str
  | [] => []
  | c :: rest =>
      if c = 10 then [c] :: rawLines rest
      else match rawLines rest with
        | [] => [[c]]
        | l :: ls => (c :: l) :: ls

theorem rawLines_newline (hl : 10 ∉ l) (rest : Str) :
    rawLines (l ++ 10 :: rest) = withNewline l :: rawLines rest := by
  induction l with
  | nil => simp [rawLines, withNewline]
  | cons c l ih =>
    rw [List.mem_cons, not_or] at hl
    rw [List.cons_append, rawLines, if_neg (Ne.symm hl.1), ih hl.2]
    rfl

theorem rawLines_last (hl : 10 ∉ l) : rawLines l = if l = [] then [] else [l] := by
  induction l with
  | nil => rfl
  | cons c l ih =>
    rw [List.mem_cons, not_or] at hl
    rw [rawLines, if_neg (Ne.symm hl.1), ih hl.2]
    by_cases hnil : l = [] <;> simp [hnil]

theorem rawLines_unlines_append (h : ∀ l ∈ ls, 10 ∉ l) (rest : Str) :
    rawLines (unlines ls ++ rest) = ls.map withNewline ++ rawLines rest := by
  induction ls with
  | nil => rfl
  | cons l ls ih =>
    rw [List.forall_mem_cons] at h
    rw [unlines_cons, List.append_assoc, List.cons_append, rawLines_newline h.1, ih h.2,
      List.map_cons, List.cons_append]

/-- Every line fits into the buffer, with its newline and the NUL behind it. -/
def LinesFit (content : Str) : Prop := ∀ l ∈ rawLines content, l.length < bufSize

instance : DecidablePred LinesFit := fun content =>
  inferInstanceAs (Decidable (∀ l ∈ rawLines content, l.length < bufSize))

/-- A file is its lines, put together, and each of them but the last ends in a newline. -/
theorem rawLines_spec (content : Str) :
    (rawLines content).flatten = content ∧ (∀ l ∈ rawLines content, l ≠ [] ∧ 10 ∉ l.dropLast) ∧
      ∀ l ∈ (rawLines content).dropLast, Ended l := by
  induction content using text_induction with
  | last l hl =>
    rw [rawLines_last hl]
    by_cases hnil : l = []
    · simp [hnil]
    · rw [if_neg hnil]
      refine ⟨by simp, ?_, fun p hp => by cases hp⟩
      exact List.forall_mem_singleton.2 ⟨hnil, fun h => hl (List.mem_of_mem_dropLast h)⟩
  | newline l rest hl ih =>
    obtain ⟨hflat, hline, hended⟩ := ih
    rw [rawLines_newline hl]
    refine ⟨by simp [hflat, withNewline], ?_, fun p hp => ?_⟩
    · exact List.forall_mem_cons.2 ⟨⟨by simp [withNewline], by simpa [withNewline] using hl⟩, hline⟩
    · rcases mem_dropLast_cons hp with rfl | hp
      · exact Or.inl (by simp [withNewline])
      · exact hended p hp

/-- **`fgets` delivers whole lines exactly if every line fits** into the buffer. -/
theorem pieces_eq_rawLines_iff (content : Str) :
    pieces content = rawLines content ↔ LinesFit content := by
  obtain ⟨hflat, hline, hended⟩ := rawLines_spec content
  rw [pieces_eq_iff]
  constructor
  · rintro ⟨-, hpiece, -⟩ l hl
    exact (hpiece l hl).length_lt
  · intro hfit
    exact ⟨hflat, fun l hl => ⟨(hline l hl).1, hfit l hl, (hline l hl).2⟩, hended⟩

end IpLib
end MongoUtils
