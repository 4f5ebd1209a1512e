import WireSchema.Token.Lexer
import Mathlib.Algebra.Order.Ring.Nat
import Mathlib.Data.List.TakeWhile
set_option autoImplicit false

namespace WireSchema.Token

open Text (newline byte)

def shift (k : UInt32) (t : Token) : Token := { t with offset := t.offset + k }

def isSolid (t : Token) : Bool := t.kind != .space && t.kind != .eof

section Lexemes

variable {p : UInt8 → Bool} {c : UInt8} {rest : Text}

theorem run_le (p : UInt8 → Bool) (t : Text) : run p t ≤ t.length :=
  (List.takeWhile_sublist p).length_le

theorem run_newline (hp : p newline = false) (t more : Text) :
    run p (t ++ newline :: more) = run p t := by
  induction t with
  | nil => simp [run,hp]
  | cons c t ih =>
    cases hc : p c with
    | true => simpa [run,hc] using ih
    | false => simp [run,hc]

theorem stringTail?_newline (t more : Text) :
    stringTail? (t ++ newline :: more) = stringTail? t := by
  cases t with
  | nil => simp [stringTail?,isLineEnd,newline]
  | cons c t =>
    have hrun := run_newline (p := fun c => c != byte '"' && !isLineEnd c)
      (by simp [isLineEnd,newline]) t more
    have hle := run_le (fun c => c != byte '"' && !isLineEnd c) t
    simp only [List.cons_append,stringTail?,hrun]
    rw [List.drop_append_of_le_length hle]
    cases t.drop (run (fun c => c != byte '"' && !isLineEnd c) t) with
    | nil =>
      have hq : (newline == byte '"') = false := by decide
      simp [hq]
    | cons d t => simp

theorem wordTail?_newline (c : UInt8) (rest more : Text) :
    wordTail? c (rest ++ newline :: more) = wordTail? c rest := by
  have hrun (t : Text) : run isWordByte (t ++ newline :: more) = run isWordByte t :=
    run_newline (by decide) t more
  have hstart : isWordStart newline = false := by decide
  unfold wordTail?
  cases rest with
  | nil =>
    have h := hrun []
    rw [List.nil_append] at h
    simp [hstart,h]
  | cons d t =>
    have h := hrun (d :: t)
    rw [List.cons_append] at h
    simp [hrun t,h]

theorem commentTail?_newline (c : UInt8) (rest more : Text) :
    commentTail? c (rest ++ newline :: more) = commentTail? c rest := by
  cases rest with
  | nil =>
    have hslash : (newline == byte '/') = false := by decide
    simp [commentTail?,hslash]
  | cons d t =>
    have hrun := run_newline (p := fun b => !isLineEnd b) (by simp [isLineEnd,newline]) t more
    simp [commentTail?,hrun]

theorem lexeme_newline (hc : isSpace c = false) (rest more : Text) :
    lexeme c (rest ++ newline :: more) = lexeme c rest := by
  have hletter := run_newline (p := Text.isLetter) (by decide) rest more
  have hword := run_newline (p := fun b => !isSpace b) (by decide) rest more
  unfold lexeme
  rw [stringTail?_newline,wordTail?_newline,hletter,hword]
  simp [hc]

theorem stringTail?_le {n : Nat} (h : stringTail? rest = some n) : n ≤ rest.length := by
  cases rest with
  | nil => simp [stringTail?] at h
  | cons d t =>
    simp only [stringTail?] at h
    split at h
    · simp at h
    · split at h
      · rename_i hd
        have hne : t.drop (run (fun c => c != byte '"' && !isLineEnd c) t) ≠ [] := by
          intro he
          simp [he] at hd
        have hlt := List.length_pos_iff.mpr hne
        rw [List.length_drop] at hlt
        cases h
        simp only [List.length_cons]
        omega
      · simp at h

theorem wordTail?_le {n : Nat} (h : wordTail? c rest = some n) : n ≤ rest.length := by
  unfold wordTail? at h
  split at h
  · cases rest with
    | nil => simp at h
    | cons d t =>
      have hle := run_le isWordByte t
      simp only at h
      split at h
      · cases h
        simp only [List.length_cons]
        omega
      · simp at h
  · split at h
    · cases h
      exact run_le _ _
    · simp at h

theorem lexeme_le (c : UInt8) (rest : Text) : (lexeme c rest).2 ≤ rest.length := by
  unfold lexeme
  split
  · exact run_le _ _
  · split
    · simp
    · split
      · rename_i n hn
        split at hn
        · exact stringTail?_le hn
        · simp at hn
      · split
        · rename_i n hn
          exact wordTail?_le hn
        · split
          · exact run_le _ _
          · split
            · simp
            · exact run_le _ _

theorem commentTail?_le {n : Nat} (h : commentTail? c rest = some n) : n ≤ rest.length := by
  cases rest with
  | nil => simp [commentTail?] at h
  | cons d t =>
    have hle := run_le (fun b => !isLineEnd b) t
    simp only [commentTail?] at h
    split at h
    · cases h
      simp only [List.length_cons]
      omega
    · simp at h

end Lexemes

theorem scan_comment {c : UInt8} {rest : Text} {n : Nat} (h : commentTail? c rest = some n)
    (offset : UInt32) :
    scan offset (c :: rest) = scan (offset + (n + 1).toUInt32) (rest.drop n) := by
  rw [scan]
  simp only [h]

theorem scan_lexeme {c : UInt8} {rest : Text} (h : commentTail? c rest = none) (offset : UInt32) :
    scan offset (c :: rest) =
      ⟨(lexeme c rest).1,c :: rest.take (lexeme c rest).2,offset⟩ ::
        scan (offset + ((lexeme c rest).2 + 1).toUInt32) (rest.drop (lexeme c rest).2) := by
  rw [scan]
  simp only [h]

theorem add_toUInt32 (offset : UInt32) (m n : Nat) :
    offset + m.toUInt32 + n.toUInt32 = offset + (m + n).toUInt32 := by
  rw [UInt32.add_assoc]
  exact congrArg _ (UInt32.ofNat_add m n).symm

theorem scan_shift (k offset : UInt32) (src : Text) :
    scan (offset + k) src = (scan offset src).map (shift k) := by
  have hcomm (a b : UInt32) : a + k + b = a + b + k := by ac_rfl
  induction offset, src using scan.induct with
  | case1 offset => simp [scan,shift]
  | case2 offset c rest n h ih => rw [scan_comment h,scan_comment h,hcomm,ih]
  | case3 offset c rest h n ih =>
    rw [scan_lexeme h,scan_lexeme h,hcomm,List.map_cons]
    exact congrArg _ ih

theorem scan_space {c : UInt8} (hc : isSpace c = true) (offset : UInt32) (src : Text) :
    (scan offset (c :: src)).filter isSolid = (scan (offset + 1) src).filter isSolid := by
  have hcomment (c : UInt8) (hc : isSpace c = true) (rest : Text) : commentTail? c rest = none := by
    have hslash : (c == byte '/') = false := by
      by_contra h
      have he : c = byte '/' := by simpa using h
      subst he
      exact absurd hc (by decide)
    cases rest with
    | nil => rfl
    | cons d t => simp [commentTail?,hslash]
  have hlexeme (c : UInt8) (hc : isSpace c = true) (rest : Text) :
      lexeme c rest = (.space,run isSpace rest) := by simp [lexeme,hc]
  rw [scan_lexeme (hcomment c hc src),hlexeme c hc src]
  -- The lexeme takes all the white space that follows, which is what is read next without it.
  cases src with
  | nil => simp [run,isSolid]
  | cons d t =>
    cases hd : isSpace d with
    | true =>
      have hrun : run isSpace (d :: t) = run isSpace t + 1 := by simp [run,hd]
      have hoffset : offset + (run isSpace t + 1 + 1).toUInt32 =
          offset + 1 + (run isSpace t + 1).toUInt32 := by
        rw [Nat.add_comm _ 1,← add_toUInt32]
        rfl
      rw [scan_lexeme (hcomment d hd t),hlexeme d hd t,hrun,hoffset]
      simp [isSolid]
    | false =>
      have hrun : run isSpace (d :: t) = 0 := by simp [run,hd]
      simp [isSolid,hrun]

theorem filter_scan_newline (offset : UInt32) (s more : Text) :
    (scan offset (s ++ newline :: more)).filter isSolid =
      (scan offset s).filter isSolid ++
        (scan (offset + (s.length + 1).toUInt32) more).filter isSolid := by
  induction hn : s.length using Nat.strong_induction_on generalizing s offset with
  | _ n ih =>
    subst hn
    cases s with
    | nil =>
      rw [List.nil_append,scan_space (by decide)]
      simp [scan,isSolid]
    | cons c rest =>
      -- White space is dropped byte by byte; a comment or another lexeme does not see the newline.
      have hback {m : Nat} (hm : m ≤ rest.length) :
          (scan (offset + (m + 1).toUInt32) ((rest ++ newline :: more).drop m)).filter isSolid =
            (scan (offset + (m + 1).toUInt32) (rest.drop m)).filter isSolid ++
              (scan (offset + ((c :: rest).length + 1).toUInt32) more).filter isSolid := by
        have hlen : (rest.drop m).length = rest.length - m := List.length_drop
        have hsum : m + 1 + (rest.length - m + 1) = (c :: rest).length + 1 := by
          simp only [List.length_cons]
          omega
        rw [List.drop_append_of_le_length hm,
          ih (rest.drop m).length (by simp only [hlen,List.length_cons]; omega) _ _ rfl,hlen,
          add_toUInt32,hsum]
      rw [List.cons_append]
      cases hc : isSpace c with
      | true =>
        rw [scan_space hc,scan_space hc]
        exact hback (Nat.zero_le _)
      | false =>
        cases hcomment : commentTail? c rest with
        | some m =>
          have hcomment' : commentTail? c (rest ++ newline :: more) = some m :=
            (commentTail?_newline c rest more).trans hcomment
          rw [scan_comment hcomment',scan_comment hcomment]
          exact hback (commentTail?_le hcomment)
        | none =>
          have hcomment' : commentTail? c (rest ++ newline :: more) = none :=
            (commentTail?_newline c rest more).trans hcomment
          have hle := lexeme_le c rest
          rw [scan_lexeme hcomment',scan_lexeme hcomment,lexeme_newline hc,
            List.take_append_of_le_length hle,List.filter_cons,List.filter_cons,hback hle]
          split
          · rfl
          · rfl

theorem ofSource_newline (s more : Text) :
    ofSource (s ++ newline :: more) =
      ofSource s ++ (ofSource more).map (shift (s.length + 1).toUInt32) := by
  have hfilter (k : UInt32) (ts : List Token) :
      (ts.map (shift k)).filter isSolid = (ts.filter isSolid).map (shift k) := by
    rw [List.filter_map]
    rfl
  have h := filter_scan_newline 0 s more
  rw [scan_shift,hfilter] at h
  exact h

theorem toNat_add_toUInt32 {offset : UInt32} {n : Nat} (h : offset.toNat + n < 2 ^ 32) :
    (offset + n.toUInt32).toNat = offset.toNat + n := by
  have hsize : n < UInt32.size := by
    simp only [UInt32.size]
    omega
  have hn : n.toUInt32.toNat = n := UInt32.toNat_ofNat_of_lt' hsize
  rw [UInt32.toNat_add,hn,Nat.mod_eq_of_lt h]

theorem scan_within {offset : UInt32} {src : Text} (hsrc : offset.toNat + src.length < 2 ^ 32)
    {t : Token} (ht : t ∈ scan offset src) :
    t.offset.toNat + t.text.length ≤ offset.toNat + src.length ∧ (t.kind = .eof ∨ t.text ≠ []) := by
  induction offset, src using scan.induct with
  | case1 offset =>
    simp only [scan,List.mem_singleton] at ht
    subst ht
    simp
  | case2 offset c rest n h ih =>
    have hle := commentTail?_le h
    simp only [List.length_cons] at hsrc ⊢
    have hoffset : (offset + (n + 1).toUInt32).toNat = offset.toNat + (n + 1) :=
      toNat_add_toUInt32 (by omega)
    rw [scan_comment h] at ht
    rw [hoffset,List.length_drop] at ih
    have hback := ih (by omega) ht
    exact ⟨by omega,hback.2⟩
  | case3 offset c rest h n ih =>
    have hle : n ≤ rest.length := lexeme_le c rest
    simp only [List.length_cons] at hsrc ⊢
    have hoffset : (offset + (n + 1).toUInt32).toNat = offset.toNat + (n + 1) :=
      toNat_add_toUInt32 (by omega)
    rw [scan_lexeme h] at ht
    rcases List.mem_cons.mp ht with rfl | ht
    · simp only [List.length_cons,List.length_take]
      exact ⟨by omega,by simp⟩
    · rw [hoffset,List.length_drop] at ih
      have hback := ih (by omega) ht
      exact ⟨by omega,hback.2⟩

theorem ofSource_within {src : Text} (hsrc : src.length < 2 ^ 32) {t : Token}
    (ht : t ∈ ofSource src) :
    t.offset.toNat + t.text.length ≤ src.length ∧ t.text ≠ [] := by
  obtain ⟨hscan,hsolid⟩ := List.mem_filter.mp ht
  have h := scan_within (by simpa using hsrc) hscan
  have hk : t.kind ≠ .eof := by simpa using (Bool.and_eq_true_iff.mp hsolid).2
  exact ⟨by simpa using h.1,h.2.resolve_left hk⟩

end WireSchema.Token
