import ScratchOs.Game.Frame
import ScratchOs.Game.Solve
import ScratchOs.Kernel.Keyboard

/-!
# The game from its first frame to its last

`game_mainloop` of `kernel/game.c` on the bytes that the keyboard controller gives.  A call of
`get_key` that does not return leaves the last frame on the screen.  So the result of a run is what
has been shown, and whether the game was over.

* `Solved` — every tile is at its own place.
* **`mainloop_plays`** — one frame for each key, the game ends with the first frame that is solved,
  and the last thing on the screen is the whole picture.
* **`mainloop_winnable`** — whatever has been pressed, the game can still be brought to its end.

**Three results meet here**: what `get_key` makes of the bytes, what a key does to the state, and
what a frame shows of it.  The loop only ties them together, and its invariant is that the state is
the one the keys so far have led to.

**The second result** is about keyboards and not about boards.  `puzzle_solvable` gives keys; here
there must be events that make `get_key` return these keys, whatever has been pressed and is still
held.  A key that is held is released first.
-/

namespace ScratchOs

open Bytes Canvas Runs

/-! ## The program

The loop has no bound of its own, and neither has the keyboard.  The fuel is the number of bytes, of
which each round reads one at least.
-/

/-- The loop of `game_mainloop`: what `update_screen` shows, and whether the game is over.
Every round but the last one reads a key, which is what `fuel` counts. -/
def gameLoop (info : ModeInfoBlock) : ℕ → GameState → List UInt8 → Option (List VmemBuffer × Bool)
  | 0, _, _ => none
  | fuel + 1, game, reads => do
      let frame ← updateFrame info game
      let valid ← checkValid game
      if valid ≠ 0 then some ([frame], true)
      else
        match getKey reads with
        | none => some ([frame], false)
        | some (scancode, reads) => do
            let game ← updateGameState game scancode
            let (frames, won) ← gameLoop info fuel game reads
            some (frame :: frames, won)

/-- The end of `game_mainloop`: the whole picture. -/
def drawPicture (info : ModeInfoBlock) (pic : Picture) : Option VmemBuffer :=
  forTo pic.h (fun buf y => forTo pic.w (fun buf x => do
    let color ← getColor pic.bgr x y pic.w pic.h
    drawPixel info buf x y color) buf) (fill 1440000 0)

/-- `game_mainloop`: what `update_screen` shows, and whether it returns. -/
def gameMainloop (info : ModeInfoBlock) (pic : Picture) (reads : List UInt8) :
    Option (List VmemBuffer × Bool) := do
  let (frames, won) ← gameLoop info (reads.length + 1) pic.initialState reads
  if won then (drawPicture info pic).map fun picture => (frames ++ [picture], true)
  else some (frames, false)

/-! ## The frames

What one run of the loop shows, from any state of the game.
-/

/-- Every tile is at its own place, so that the picture is whole. -/
def GameState.Solved (game : GameState) : Prop :=
  ∀ i < (game.nrBlockV * game.nrBlockH).toNat, game.block[i]? = some (i : ℤ)

/-- A frame shows a state: every pixel has the colour that the state gives it. -/
def ShowsState (info : ModeInfoBlock) (game : GameState) (frame : VmemBuffer) : Prop :=
  ∀ x y : ℕ, x < info.Xres.toNat → y < info.Yres.toNat →
    pixelAt info frame x y = game.frameColor (x, y)

/-- A frame shows the whole picture. -/
def ShowsWhole (info : ModeInfoBlock) (pic : Picture) (frame : VmemBuffer) : Prop :=
  ∀ x y : ℕ, x < info.Xres.toNat → y < info.Yres.toNat →
    pixelAt info frame x y
      = if (x : ℤ) < pic.w ∧ (y : ℤ) < pic.h then pictureAt pic.bgr pic.w x y else ⟨0, 0, 0⟩

/-- The test gives 0 or 1 and nothing else. -/
lemma checkFrom_cases {block : List ℤ} {n : ℤ} {i : ℕ} {r : ℤ} (h : checkFrom block n i = some r) :
    r = 0 ∨ r = 1 := by
  fun_induction checkFrom block n i with
  | case1 i hlt ih =>
      simp only [Option.bind_eq_bind, Option.bind_eq_some_iff] at h
      obtain ⟨a, -, b, -, h⟩ := h
      split at h
      · cases h
        exact Or.inl rfl
      · exact ih h
  | case2 i hlt =>
      cases h
      exact Or.inr rfl

/-- A state that shows a board is solved exactly when the tiles of the board are not permuted. -/
lemma Board.Shows.solved_iff {v h : ℕ} {b : Board v h} {game : GameState} (hb : b.Shows game) :
    game.Solved ↔ b.tiles = 1 := by
  have hcount : (game.nrBlockV * game.nrBlockH).toNat = v * h := by
    rw [hb.nrBlockV, hb.nrBlockH, ← Int.natCast_mul, Int.toNat_natCast]
  rw [GameState.Solved, hcount, hb.block, blockOf_one_iff]

/-- A key has been read, so that fewer bytes are left.  This is why the rounds come to an end. -/
lemma getKey_length {reads rest : List UInt8} {c : UInt32} (h : getKey reads = some (c, rest)) :
    rest.length < reads.length := by
  simp only [getKey, Option.bind_eq_bind, Option.bind_eq_some_iff, Prod.exists] at h
  obtain ⟨c₁, r₁, hpress, c₂, r₂, hrelease, hsome⟩ := h
  cases hsome
  obtain ⟨passed, e, rfl, -⟩ := pollUntil_stops hpress
  obtain ⟨passed', e', rfl, -⟩ := pollUntil_stops hrelease
  have hpos : 0 < e.bytes.length := by
    rw [Event.bytes]
    split <;> simp
  simp only [List.length_append]
  omega

section Frames

variable {info : ModeInfoBlock} {pic : Picture}

/-- **The whole picture** is copied to the screen. -/
lemma drawPicture_shows (hfits : info.FitsBuffer)
    (hbytes : (pic.bgr.length : ℤ) = pic.w * pic.h * 3) :
    ∃ frame, drawPicture info pic = some frame ∧ ShowsWhole info pic frame := by
  have hdraws : Draws (OnScreen info)
      (forTo pic.h fun buf y => forTo pic.w (fun buf x => do
        let color ← getColor pic.bgr x y pic.w pic.h
        drawPixel info buf x y color) buf)
      (rect 0 0 pic.w pic.h) fun p => pictureAt pic.bgr pic.w p.1 p.2 := by
    refine Draws.rect fun x y hx hx' hy hy' => ?_
    obtain ⟨color, hcolor, hunpack⟩ := getColor_eq hbytes ⟨hx, hx'⟩ ⟨hy, hy'⟩
    simp only [hcolor, Option.bind_eq_bind, Option.bind_some]
    refine ((drawPixel_draws hfits x y color).area fun p => ?_).colours fun p hp => ?_
    · rw [Int.zero_add, Int.zero_add]
    · obtain rfl : p = (0 + x, 0 + y) := hp
      rw [Int.zero_add, Int.zero_add, hunpack]
  have hblank : OnScreen info (fill 1440000 0) fun _ => ⟨0, 0, 0⟩ := by
    intro x y _ _
    simp only [pixelAt, byteAt_fill_zero]
  obtain ⟨frame, hok, hframe⟩ := hdraws _ _ hblank
  refine ⟨frame, hok, fun x y hx hy => ?_⟩
  rw [hframe x y hx hy, rect, paint_apply]
  have hinside : (0 ≤ (x : ℤ) ∧ (x : ℤ) < 0 + pic.w) ∧ 0 ≤ (y : ℤ) ∧ (y : ℤ) < 0 + pic.h
      ↔ (x : ℤ) < pic.w ∧ (y : ℤ) < pic.h := by
    omega
  simp only [hinside]

variable (hw : 100 ≤ pic.w) (hh : 100 ≤ pic.h)
include hw hh

/-- **The test finds out** whether the tiles are in their places. -/
lemma checkValid_solved {past : List UInt32} {game : GameState}
    (hgame : past.foldlM updateGameState pic.initialState = some game) :
    ∃ valid, checkValid game = some valid ∧ (valid ≠ 0 ↔ game.Solved) := by
  obtain ⟨hrows, hcolumns⟩ := Picture.neZero hw hh
  obtain ⟨game', hok, hshows⟩ := keys_shows past (initial_shows pic hw hh)
  obtain rfl : game' = game := Option.some.inj (hok.symm.trans hgame)
  obtain ⟨valid, hvalid, hone⟩ := checkValid_shows hshows
  have hiff : valid ≠ 0 ↔ valid = 1 := by
    have hcases := checkFrom_cases hvalid
    omega
  exact ⟨valid, hvalid, hiff.trans (hone.trans hshows.solved_iff.symm)⟩

/-- A key is always handled, and the state after it is again one that keys have led to. -/
lemma updateGameState_ok {past : List UInt32} {game : GameState}
    (hgame : past.foldlM updateGameState pic.initialState = some game) (c : UInt32) :
    ∃ game', updateGameState game c = some game' ∧
      (past ++ [c]).foldlM updateGameState pic.initialState = some game' := by
  obtain ⟨hrows, hcolumns⟩ := Picture.neZero hw hh
  obtain ⟨game₁, hok, hshows⟩ := keys_shows past (initial_shows pic hw hh)
  obtain rfl : game₁ = game := Option.some.inj (hok.symm.trans hgame)
  obtain ⟨game', hstep, -⟩ := updateGameState_shows hshows c
  refine ⟨game', hstep, ?_⟩
  rw [List.foldlM_append, hgame]
  simpa using hstep

variable (hfits : info.FitsBuffer) (hbytes : (pic.bgr.length : ℤ) = pic.w * pic.h * 3)
include hfits hbytes

/-- **The rounds of the game**, from a state that some keys have led to.  The induction is on the
rounds; it takes one call of `get_key` off the bytes at a time. -/
lemma gameLoop_plays {past : List UInt32} {game : GameState}
    (hgame : past.foldlM updateGameState pic.initialState = some game) {fuel : ℕ}
    {reads : List UInt8} (hfuel : reads.length < fuel) :
    ∃ codes rest frames won, getKeys codes.length reads = some (codes, rest)
      ∧ gameLoop info fuel game reads = some (frames, won)
      ∧ frames.length = codes.length + 1 ∧ (won = false → getKey rest = none)
      ∧ ∀ k ≤ codes.length, ∃ game' frame,
          (codes.take k).foldlM updateGameState game = some game' ∧ frames[k]? = some frame
          ∧ ShowsState info game' frame ∧ (game'.Solved ↔ won = true ∧ k = codes.length) := by
  induction fuel generalizing past game reads with
  | zero => exact absurd hfuel (Nat.not_lt_zero _)
  | succ fuel ih =>
      obtain ⟨frame, hframe, hshows⟩ :=
        updateFrame_layers hfits (keys_pictured (by omega) (by omega) hbytes hgame)
      obtain ⟨valid, hvalid, hsolved⟩ := checkValid_solved hw hh hgame
      -- the frame that this round shows
      have hfirst : ∀ won, (game.Solved ↔ won = true) → ∀ k ≤ ([] : List UInt32).length,
          ∃ game' frame', (([] : List UInt32).take k).foldlM updateGameState game = some game'
            ∧ [frame][k]? = some frame' ∧ ShowsState info game' frame'
            ∧ (game'.Solved ↔ won = true ∧ k = ([] : List UInt32).length) := by
        intro won hover k hk
        obtain rfl := Nat.le_zero.mp hk
        exact ⟨game, frame, rfl, rfl, hshows, by simpa using hover⟩
      rw [gameLoop, hframe, hvalid]
      simp only [Option.bind_eq_bind, Option.bind_some]
      by_cases hend : valid ≠ 0
      · refine ⟨[], reads, [frame], true, rfl, by rw [if_pos hend], rfl,
          fun hwait => Bool.noConfusion hwait, ?_⟩
        exact hfirst true (iff_of_true (hsolved.mp hend) rfl)
      · have hnot : ¬ game.Solved := mt hsolved.mpr hend
        rw [if_neg hend]
        cases hkey : getKey reads with
        | none =>
            refine ⟨[], reads, [frame], false, rfl, rfl, rfl, fun _ => hkey, ?_⟩
            exact hfirst false (iff_of_false hnot Bool.false_ne_true)
        | some x =>
            obtain ⟨c, rest₁⟩ := x
            obtain ⟨game₁, hstep, hgame₁⟩ := updateGameState_ok hw hh hgame c
            have hless := getKey_length hkey
            obtain ⟨codes, rest, frames, won, hkeys, hloop, hlen, hwait, hall⟩ :=
              ih hgame₁ (by omega : rest₁.length < fuel)
            simp only [hstep, hloop, Option.bind_some]
            refine ⟨c :: codes, rest, frame :: frames, won, ?_, rfl, ?_, hwait, fun k hk => ?_⟩
            · simp [getKeys, hkey, hkeys]
            · rw [List.length_cons, hlen, List.length_cons]
            · cases k with
              | zero => exact ⟨game, frame, rfl, rfl, hshows, iff_of_false hnot (by simp)⟩
              | succ k =>
                  obtain ⟨game', frame', hcodes, hget, hshows', hsolved'⟩ :=
                    hall k (Nat.le_of_succ_le_succ hk)
                  refine ⟨game', frame', ?_, hget, hshows', by simpa using hsolved'⟩
                  rw [List.take_succ_cons, List.foldlM_cons, hstep]
                  exact hcodes

end Frames

/-- **The whole game.**  The keys are what successive calls of `get_key` return.  There is a frame
for the first state and one for the state after each key, and the game goes on exactly until one of
them is solved; then it shows the whole picture and returns.  Otherwise it waits for a key. -/
theorem mainloop_plays (pic : Picture) (hw : 100 ≤ pic.w) (hh : 100 ≤ pic.h)
    (hbytes : (pic.bgr.length : ℤ) = pic.w * pic.h * 3) (info : ModeInfoBlock)
    (hline : 3 * info.Xres.toNat ≤ info.pitch.toNat)
    (hsize : info.Yres.toNat * info.pitch.toNat ≤ 800 * 600 * 3) (reads : List UInt8) :
    ∃ codes rest frames won, getKeys codes.length reads = some (codes, rest)
      ∧ (∀ k ≤ codes.length, ∃ game frame,
          (codes.take k).foldlM updateGameState pic.initialState = some game
          ∧ frames[k]? = some frame ∧ ShowsState info game frame
          ∧ (game.Solved ↔ won = true ∧ k = codes.length))
      ∧ frames.length = codes.length + 1
      ∧ if won then ∃ picture, gameMainloop info pic reads = some (frames ++ [picture], true)
          ∧ ShowsWhole info pic picture
        else gameMainloop info pic reads = some (frames, false) ∧ getKey rest = none := by
  have hfits : info.FitsBuffer := ⟨hline, hsize⟩
  have hnone : ([] : List UInt32).foldlM updateGameState pic.initialState = some pic.initialState :=
    rfl
  obtain ⟨codes, rest, frames, won, hkeys, hloop, hlen, hwait, hall⟩ :=
    gameLoop_plays hw hh hfits hbytes hnone (Nat.lt_succ_self reads.length)
  refine ⟨codes, rest, frames, won, hkeys, hall, hlen, ?_⟩
  rw [gameMainloop, hloop]
  cases won with
  | false => exact ⟨rfl, hwait rfl⟩
  | true =>
      obtain ⟨picture, hpicture, hshows⟩ := drawPicture_shows hfits hbytes
      simp only [Option.bind_eq_bind, Option.bind_some, if_true, hpicture, Option.map_some]
      exact ⟨picture, rfl, hshows⟩

/-! ## Bringing it to an end

Events that release what is held, and then events for the keys that solve the board.
-/

/-- Fewer calls return the first of the keys, and there are not more when the last one waits. -/
lemma getKeys_take {m n : ℕ} {reads rest rest' : List UInt8} {codes codes' : List UInt32}
    (hm : getKeys m reads = some (codes', rest')) (hwait : getKey rest' = none)
    (hn : getKeys n reads = some (codes, rest)) : n ≤ m ∧ codes = codes'.take n := by
  induction n generalizing m reads codes codes' with
  | zero =>
      cases hn
      exact ⟨Nat.zero_le m, List.take_zero.symm⟩
  | succ n ih =>
      simp only [getKeys, Option.bind_eq_bind, Option.bind_eq_some_iff, Prod.exists] at hn
      obtain ⟨c, r, hkey, tail, r', htail, hsome⟩ := hn
      cases hsome
      cases m with
      | zero =>
          cases hm
          rw [hkey] at hwait
          cases hwait
      | succ m =>
          simp only [getKeys, hkey, Option.bind_eq_bind, Option.bind_some,
            Option.bind_eq_some_iff, Prod.exists] at hm
          obtain ⟨tail', r'', htail', hsome⟩ := hm
          cases hsome
          obtain ⟨hle, htake⟩ := ih htail' htail
          exact ⟨Nat.succ_le_succ hle, by rw [htake, List.take_succ_cons]⟩

section Winning

variable {info : ModeInfoBlock} {pic : Picture}

/-- **The game is won** when some of the keys lead to a solved state. -/
lemma gameMainloop_over (hw : 100 ≤ pic.w) (hh : 100 ≤ pic.h)
    (hbytes : (pic.bgr.length : ℤ) = pic.w * pic.h * 3) (hfits : info.FitsBuffer)
    {reads rest : List UInt8} {codes : List UInt32} {n : ℕ} {game : GameState}
    (hkeys : getKeys n reads = some (codes, rest))
    (hgame : codes.foldlM updateGameState pic.initialState = some game) (hsolved : game.Solved) :
    ∃ frames, gameMainloop info pic reads = some (frames, true) := by
  obtain ⟨codes', rest', frames, won, hkeys', hall, -, hend⟩ :=
    mainloop_plays pic hw hh hbytes info hfits.line hfits.size reads
  cases won with
  | true =>
      obtain ⟨picture, hok, -⟩ := hend
      exact ⟨_, hok⟩
  | false =>
      obtain ⟨hle, rfl⟩ := getKeys_take hkeys' hend.2 hkeys
      obtain ⟨game', frame, hgame', -, -, hsolved'⟩ := hall n hle
      obtain rfl : game' = game := Option.some.inj (hgame'.symm.trans hgame)
      exact absurd (hsolved'.mp hsolved).1 Bool.false_ne_true

end Winning

/-- What comes later does not change how a press is served. -/
lemma Served.append {es rest : List Event} {p : Event} (h : Served es p rest) (more : List Event) :
    Served (es ++ more) p (rest ++ more) := by
  obtain ⟨before, middle, r, rfl, hbefore, hp, hmiddle, hr⟩ := h
  exact ⟨before, middle, r, by simp, hbefore, hp, hmiddle, hr⟩

lemma served_run_append {es rest keys : List Event} (h : Run Served es keys rest)
    (more : List Event) : Run Served (es ++ more) keys (rest ++ more) := by
  induction h with
  | nil => exact Run.nil _
  | cons hserved _ ih => exact Run.cons (hserved.append more) ih

/-- The release of a key.  The release of `0x60` would be the byte `0xE0`, which begins a scancode
of two bytes. -/
lemma exists_release {p : Event} (hp : p.IsPress) (h60 : p.extended = true ∨ p.byte ≠ 0x60) :
    ∃ r : Event, r.Releases p := by
  have hall : ∀ k : Fin 256, UInt8.ofNat k < 0x80 → UInt8.ofNat k ||| 0x80 = 0xE0 →
      UInt8.ofNat k = 0x60 := by
    decide +kernel
  have hbyte : UInt8.ofNat p.byte.toNat = p.byte := UInt8.ofNat_toNat
  have hrelease := hall ⟨p.byte.toNat, p.byte.toNat_lt⟩
  simp only [hbyte] at hrelease
  refine ⟨⟨p.extended, p.byte ||| 0x80, fun hplain hprefix => ?_⟩, rfl, rfl⟩
  rcases h60 with hext | hne
  · rw [hplain] at hext
    cases hext
  · exact hne (hrelease hp hprefix)

/-- The first event with a property, if there is one. -/
lemma first_event (P : Event → Prop) [DecidablePred P] (es : List Event) :
    (∀ e ∈ es, ¬ P e)
      ∨ ∃ before p after, es = before ++ p :: after ∧ (∀ e ∈ before, ¬ P e) ∧ P p := by
  cases h : es.find? (fun e => decide (P e)) with
  | none => exact Or.inl fun e he => by simpa using List.find?_eq_none.mp h e he
  | some p =>
      obtain ⟨hp, before, after, hes, hbefore⟩ := List.find?_eq_some_iff_append.mp h
      exact Or.inr ⟨before, p, after, hes, fun e he => by simpa using hbefore e he,
        of_decide_eq_true hp⟩

/-- **A key that is held can be released**: then no press is left that has not been served. -/
lemma exists_drained {es : List Event} (h60 : ∀ e ∈ es, e.extended = true ∨ e.byte ≠ 0x60) :
    ∃ more keys rest, Run Served (es ++ more) keys rest ∧ ∀ e ∈ rest, ¬ e.IsPress := by
  induction hn : es.length using Nat.strongRecOn generalizing es with
  | ind n ih =>
      rcases first_event Event.IsPress es with hnone | ⟨before, p, after, rfl, hbefore, hp⟩
      · exact ⟨[], [], es, by simp, hnone⟩
      · rcases first_event (Event.Releases · p) after with
          hheld | ⟨middle, r, rest, rfl, hmiddle, hr⟩
        · obtain ⟨r, hr⟩ := exists_release hp (h60 p (by simp))
          refine ⟨[r], [p], [], Run.cons ⟨before, after, r, by simp, hbefore, hp, hheld, hr⟩
            (Run.nil _), by simp⟩
        · have hserved : Served (before ++ p :: (middle ++ r :: rest)) p rest :=
            ⟨before, middle, r, rfl, hbefore, hp, hmiddle, hr⟩
          have hshort : rest.length < n := by
            rw [← hn]
            simp only [List.length_append, List.length_cons]
            omega
          obtain ⟨more, keys, rest', hrun, hrest'⟩ :=
            ih _ hshort (fun e he => h60 e (by simp [he])) rfl
          exact ⟨more, p :: keys, rest', Run.cons (hserved.append more) hrun, hrest'⟩

/-- A press of a key of the game. -/
def Key.pressed : Key → Event
  | .up => ⟨true, 0x48, nofun⟩
  | .down => ⟨true, 0x50, nofun⟩
  | .left => ⟨true, 0x4B, nofun⟩
  | .right => ⟨true, 0x4D, nofun⟩
  | .space => ⟨false, 0x39, fun _ => by decide⟩

lemma Key.pressed_code (key : Key) : key.pressed.code = key.scancode := by
  cases key <;> decide

lemma Key.pressed_isPress (key : Key) : key.pressed.IsPress := by
  cases key <;> decide

lemma Key.pressed_byte (key : Key) : key.pressed.extended = true ∨ key.pressed.byte ≠ 0x60 := by
  cases key <;> decide

/-- Any keys can be pressed next, one after the other. -/
lemma exists_presses (ks : List Key) {es : List Event} (h : ∀ e ∈ es, ¬ e.IsPress) :
    ∃ more rest, Run Served (es ++ more) (ks.map Key.pressed) rest := by
  induction ks generalizing es with
  | nil => exact ⟨[], es, by simp⟩
  | cons key ks ih =>
      obtain ⟨r, hr⟩ := exists_release key.pressed_isPress key.pressed_byte
      have hempty : ∀ e ∈ ([] : List Event), ¬ e.IsPress := by simp
      obtain ⟨more, rest, hrun⟩ := ih hempty
      refine ⟨key.pressed :: r :: more, rest, Run.cons ⟨es, [], r, rfl, h, key.pressed_isPress,
        by simp, hr⟩ hrun⟩

/-- **The game can always be won.**  Whatever events there have been, there are more of them with
which `game_mainloop` returns.  A keyboard has no key with the scancode `0x60`, for which `get_key`
would wait forever. -/
theorem mainloop_winnable (pic : Picture) (hw : 100 ≤ pic.w) (hh : 100 ≤ pic.h)
    (hbytes : (pic.bgr.length : ℤ) = pic.w * pic.h * 3) (info : ModeInfoBlock)
    (hline : 3 * info.Xres.toNat ≤ info.pitch.toNat)
    (hsize : info.Yres.toNat * info.pitch.toNat ≤ 800 * 600 * 3) (es : List Event)
    (h60 : ∀ e ∈ es, e.extended = true ∨ e.byte ≠ 0x60) :
    ∃ more frames, gameMainloop info pic (bytesOf (es ++ more)) = some (frames, true) := by
  obtain ⟨hrows, hcolumns⟩ := Picture.neZero hw hh
  obtain ⟨more, keys, rest, hrun, hrest⟩ := exists_drained h60
  obtain ⟨b, ⟨ks, rfl⟩, hone⟩ := Board.reaches_solved
    ((keys.map Event.code).foldl Board.step (Board.initial pic.rows pic.columns))
  obtain ⟨more', rest', hrun'⟩ := exists_presses ks hrest
  have hall : Run Served (es ++ (more ++ more')) (keys ++ ks.map Key.pressed) rest' := by
    rw [← List.append_assoc]
    exact run_append.mpr ⟨_, served_run_append hrun more', hrun'⟩
  have hcodes : (keys ++ ks.map Key.pressed).map Event.code
      = keys.map Event.code ++ ks.map Key.scancode := by
    rw [List.map_append, List.map_map]
    congr 1
    exact List.map_congr_left fun key _ => key.pressed_code
  obtain ⟨game, hgame, hshows⟩ := keys_shows (keys.map Event.code ++ ks.map Key.scancode)
    (initial_shows pic hw hh)
  rw [List.foldl_append, Board.foldl_scancodes] at hshows
  have hkeys := getKeys_served.mpr ⟨_, rest', rfl, hall, rfl, rfl⟩
  rw [hcodes] at hkeys
  obtain ⟨frames, hframes⟩ := gameMainloop_over hw hh hbytes ⟨hline, hsize⟩ hkeys hgame
    (hshows.solved_iff.mpr hone)
  exact ⟨more ++ more', frames, hframes⟩

/-- Two tiles, when a key that means nothing to the game is held. -/
theorem mainloop_winnable_held :
    ∃ more frames, gameMainloop ⟨2400, 800, 600, 0xfd000000⟩
        ⟨List.replicate 60000 255, 200, 100⟩ (bytesOf ([⟨false, 0x1E, fun _ => by decide⟩] ++ more))
      = some (frames, true) :=
  mainloop_winnable ⟨List.replicate 60000 255, 200, 100⟩ (by decide) (by decide)
    (by rw [List.length_replicate]; rfl) ⟨2400, 800, 600, 0xfd000000⟩ (by decide) (by decide) _
    (by decide)

end ScratchOs
