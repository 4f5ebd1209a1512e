import WireSchema.Proofs.Token.Tiling
set_option autoImplicit false

namespace WireSchema.Token

open Text (newline byte)

/-- What a token is, wherever it stands. -/
def face (t : Token) : Kind × Text := (t.kind,t.text)

def lines (ts : List Token) : Text := Text.join [newline] (ts.map text)

section Cut

variable {p : UInt8 → Bool} {c : UInt8} {rest : Text} {n : Nat}

theorem run_take {t : Text} (h : run p t ≤ n) : run p (t.take n) = run p t := by
  induction t generalizing n with
  | nil => simp [run]
  | cons d t ih =>
    cases hd : p d with
    | false => cases n <;> simp [run,hd]
    | true =>
      have hrun : run p (d :: t) = run p t + 1 := by simp [run,hd]
      rw [hrun] at h
      obtain ⟨m,rfl⟩ : ∃ m, n = m + 1 := ⟨n - 1,by omega⟩
      have hrest := ih (n := m) (by omega)
      have htake : run p (d :: t.take m) = run p (t.take m) + 1 := by simp [run,hd]
      rw [List.take_succ_cons,htake,hrun,hrest]

theorem run_append {t : Text} (h : run p t < t.length) (more : Text) :
    run p (t ++ more) = run p t := by
  induction t with
  | nil => simp at h
  | cons d t ih =>
    cases hd : p d with
    | false => simp [run,hd]
    | true =>
      have hrun (u : Text) : run p (d :: u) = run p u + 1 := by simp [run,hd]
      rw [hrun,List.length_cons] at h
      rw [List.cons_append,hrun,hrun,ih (by omega)]

theorem stringTail?_take (h : stringTail? rest = some n) : stringTail? (rest.take n) = some n := by
  cases rest with
  | nil => simp [stringTail?] at h
  | cons d t =>
    simp only [stringTail?] at h
    split at h
    · simp at h
    · rename_i hd
      split at h
      · rename_i hquote
        cases h
        simp only [List.take_succ_cons,stringTail?,hd,Bool.false_eq_true,if_false,
          run_take (Nat.le_succ _),List.drop_take]
        simpa [List.head?_take,List.head?_drop] using hquote
      · simp at h

theorem stringTail?_append {t : Text} (h : stringTail? t = some n) (more : Text) :
    stringTail? (t ++ more) = some n := by
  cases t with
  | nil => simp [stringTail?] at h
  | cons d t =>
    simp only [stringTail?] at h
    split at h
    · simp at h
    · rename_i hd
      split at h
      · rename_i hquote
        -- The closing quote stands where the run has stopped.
        have hlt : run (fun c => c != byte '"' && !isLineEnd c) t < t.length := by
          by_contra hge
          rw [List.drop_eq_nil_of_le (by omega)] at hquote
          simp at hquote
        have hhead := hquote
        rw [List.head?_drop] at hhead
        simp only [List.cons_append,stringTail?,hd,Bool.false_eq_true,if_false,
          run_append hlt,List.head?_drop,List.getElem?_append_left hlt,hhead,if_true]
        exact h
      · simp at h

theorem wordTail?_take (h : wordTail? c rest = some n) : wordTail? c (rest.take n) = some n := by
  unfold wordTail? at h ⊢
  split at h
  · rename_i hminus
    rw [if_pos hminus]
    cases rest with
    | nil => simp at h
    | cons d t =>
      simp only at h
      split at h
      · rename_i hd
        cases h
        rw [Nat.add_comm,List.take_succ_cons]
        simp [hd,run_take (Nat.le_refl _),Nat.add_comm]
      · simp at h
  · rename_i hminus
    rw [if_neg hminus]
    split at h
    · rename_i hc
      cases h
      rw [if_pos hc,run_take (Nat.le_refl _)]
    · simp at h

theorem wordTail?_none (h : wordTail? c rest = none) (n : Nat) :
    wordTail? c (rest.take n) = none := by
  unfold wordTail? at h ⊢
  split at h
  · rename_i hminus
    rw [if_pos hminus]
    cases n with
    | zero => simp
    | succ n =>
      cases rest with
      | nil => simp
      | cons d t => simpa using h
  · rename_i hminus
    rw [if_neg hminus]
    split at h
    · simp at h
    · rename_i hc
      rw [if_neg hc]

theorem commentTail?_none (h : commentTail? c rest = none) (n : Nat) :
    commentTail? c (rest.take n) = none := by
  cases n with
  | zero => rfl
  | succ n =>
    cases rest with
    | nil => rfl
    | cons d t => simpa [commentTail?] using h

theorem quoted_none (h : (if c == byte '"' then stringTail? rest else none) = none) (n : Nat) :
    (if c == byte '"' then stringTail? (rest.take n) else none) = none := by
  split at h
  · rename_i hquote
    rw [if_pos hquote]
    cases hs : stringTail? (rest.take n) with
    | none => rfl
    | some m =>
      have hall := stringTail?_append hs (rest.drop n)
      rw [List.take_append_drop,h] at hall
      cases hall
  · rename_i hquote
    rw [if_neg hquote]

theorem lexeme_take (hc : isSpace c = false) :
    lexeme c (rest.take (lexeme c rest).2) = lexeme c rest := by
  unfold lexeme
  simp only [hc,Bool.false_eq_true,if_false]
  by_cases hend : c == byte ';'
  · simp [hend]
  simp only [hend,Bool.false_eq_true,if_false]
  cases hs : (if c == byte '"' then stringTail? rest else none) with
  | some n =>
    have hquote : (c == byte '"') = true := by
      by_contra hne
      rw [if_neg hne] at hs
      cases hs
    rw [if_pos hquote] at hs
    simp only [hquote,if_true,stringTail?_take hs]
  | none =>
    cases hw : wordTail? c rest with
    | some n => simp only [quoted_none hs n,wordTail?_take hw]
    | none =>
      simp only
      by_cases hmark : c == byte '#'
      · simp only [hmark,if_true,quoted_none hs _,wordTail?_none hw _,run_take (Nat.le_refl _)]
      · by_cases hop : isOperatorByte c
        · simp only [hmark,hop,Bool.false_eq_true,if_false,if_true,quoted_none hs 0,
            wordTail?_none hw 0]
        · simp only [hmark,hop,Bool.false_eq_true,if_false,quoted_none hs _,wordTail?_none hw _,
            run_take (Nat.le_refl _)]

end Cut

theorem scan_text {offset : UInt32} {src : Text} {t : Token} (ht : t ∈ scan offset src)
    (hsolid : isSolid t = true) (k : UInt32) :
    (scan k t.text).filter isSolid = [{ t with offset := k }] := by
  induction offset, src using scan.induct with
  | case1 offset =>
    simp only [scan,List.mem_singleton] at ht
    subst ht
    simp [isSolid] at hsolid
  | case2 offset c rest n h ih =>
    rw [scan_comment h] at ht
    exact ih ht
  | case3 offset c rest h n ih =>
    rw [scan_lexeme h] at ht
    rcases List.mem_cons.mp ht with rfl | ht
    · have hc : isSpace c = false := by
        cases hc : isSpace c with
        | false => rfl
        | true => simp [isSolid,lexeme,hc] at hsolid
      rw [scan_lexeme (commentTail?_none h _),lexeme_take hc,List.drop_take_self,List.take_take,
        Nat.min_self,List.filter_cons]
      have hsame : isSolid ⟨(lexeme c rest).1,c :: rest.take (lexeme c rest).2,k⟩ = true := hsolid
      rw [if_pos hsame]
      simp [scan,isSolid]
    · exact ih ht

theorem ofSource_text {src : Text} {t : Token} (ht : t ∈ ofSource src) :
    ofSource t.text = [{ t with offset := 0 }] := by
  obtain ⟨hscan,hsolid⟩ := List.mem_filter.mp ht
  exact scan_text hscan hsolid 0

theorem lines_cons (t u : Token) (ts : List Token) :
    lines (t :: u :: ts) = t.text ++ newline :: lines (u :: ts) := by
  simp [lines,Text.join]

theorem map_face_shift (k : UInt32) (ts : List Token) :
    (ts.map (shift k)).map face = ts.map face := by
  simp [Function.comp_def,face,shift]

theorem ofSource_lines (src : Text) :
    (ofSource (lines (ofSource src))).map face = (ofSource src).map face := by
  have hapart (ts : List Token) (hts : ∀ t ∈ ts, t ∈ ofSource src) :
      (ofSource (lines ts)).map face = ts.map face := by
    induction ts with
    | nil => simp [lines,Text.join,ofSource,scan]
    | cons t ts ih =>
      have htext := ofSource_text (hts t (by simp))
      cases ts with
      | nil => simp [lines,Text.join,htext,face]
      | cons u ts =>
        have hback := ih fun v hv => hts v (by simp [hv])
        rw [lines_cons,ofSource_newline,htext,List.map_append,map_face_shift,hback]
        rfl
  exact hapart _ fun t ht => ht

end WireSchema.Token
