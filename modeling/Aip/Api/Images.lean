import Aip.Api.Buffers

/-! The image helpers of the library, `iaic_cvt_format`, `iaic_resize` and `iaic_perspective`. -/

namespace Aip

/-- The image formats, `iaic_img_format_t`; the last one has a second name, `IAIC_BGRA2RGBA`. -/
inductive ImgFormat where
  | nv12
  | y
  | uv
  | bgra
  | gbra
  | rbga
  | brga
  | grba
  | rgba
  | abgr
  | agbr
  | arbg
  | abrg
  | agrb
  | argb
  | feature2
  | feature4
  | feature8
  | feature8H
  | rgba2bgra
  deriving DecidableEq, Repr

namespace ImgFormat

/-- The local variables `bpp` and `chn` of `get_img_info`. -/
def bppChn : ImgFormat → Int × Int
  | .nv12 => (12, 1)
  | .y => (8, 1)
  | .uv => (8, 2)
  | .bgra | .gbra | .rbga | .brga | .grba | .rgba | .abgr | .agbr | .arbg | .abrg | .agrb | .argb =>
    (8, 4)
  | .feature2 => (2, 32)
  | .feature4 => (4, 32)
  | .feature8 => (8, 32)
  | .feature8H => (8, 16)
  -- "IAIC error:This image format is not available."
  | .rgba2bgra => (0, 0)

/-- The result of a product of `int`s. -/
def int32 (x : Int) : Int := x.bmod (2 ^ 32)

/-- `get_img_info`: the stride and the size of an image. -/
def imgInfo (format : ImgFormat) (wdt hgt : Int) : Int × Int :=
  let (bpp, chn) := format.bppChn
  if format = .nv12 then
    let stride := wdt
    (stride, int32 (int32 (stride * hgt) * bpp) / 8)
  else
    let stride := int32 (int32 (wdt * chn) * bpp) / 8
    (stride, int32 (stride * hgt))

/-- The size of an image as the `size_t` that `iaic_create_bo` is given. -/
def imgSize (format : ImgFormat) (wdt hgt : Nat) : Nat :=
  ((format.imgInfo (int32 wdt) (int32 hgt)).2 % 2 ^ 32).toNat

end ImgFormat

/-- What the kernel answers to the calls of a helper. -/
structure ImgAnswers where
  dst : Option AreaAnswer
  node : Option AreaAnswer
  submit : Bool
  wait : Bool
  deriving DecidableEq, Repr

/-- The calls of a helper that concern a job, with how the submit ends. -/
inductive JobCall where
  | submit (ok : Bool)
  | wait
  deriving DecidableEq, Repr

/-- How a helper ends: the record that it returns, and whether it has destroyed that buffer. -/
structure ImgResult where
  succeeded : Bool
  bo : Bo
  destroyed : Bool
  pool : Pool
  calls : List JobCall

/-- What the local variables `dst_bo` and `node_bo` hold at first. -/
structure ImgLocals where
  dst : Bo
  node : Bo

namespace Pool

variable (pool : Pool) (chip : Nat) (locals : ImgLocals) (a : ImgAnswers)

/-- The exit of a helper whose destination could not be created. -/
def noDst (created : Called) : ImgResult :=
  { succeeded := false
    bo := created.bo
    destroyed := !created.released.isEmpty
    pool := created.pool
    calls := [] }

/-- The exit of a helper that destroys its destination. -/
def dropDst (pool : Pool) (dst : Bo) (calls : List JobCall) : Option ImgResult :=
  (pool.destroyBo dst).map fun gone => ⟨false, gone.bo, true, gone.pool, calls⟩

/-- `iaic_cvt_format`. -/
def cvtFormat (wdt hgt : Nat) (format : ImgFormat) : Option ImgResult :=
  (pool.createBo (format.imgSize wdt hgt) a.dst locals.dst).bind fun dst =>
    if dst.code ≠ .ok then some (noDst dst)
    -- The pixels are swapped by the processor.
    else if format = .rgba2bgra then some ⟨true, dst.bo, false, dst.pool, []⟩
    else
      -- `iaic_aip_t_submit` refuses such a height. Its result is dropped, `ret` is still 0.
      let submitted := decide (2 ≤ hgt) && a.submit
      let calls := [.submit submitted, .wait]
      if a.wait = false then dropDst dst.pool dst.bo calls
      else some ⟨true, dst.bo, false, dst.pool, calls⟩

/-- `iaic_resize`. -/
def resize (dstW dstH : Nat) (format : ImgFormat) : Option ImgResult :=
  (pool.createBo (format.imgSize dstW dstH) a.dst locals.dst).bind fun dst =>
    if dst.code ≠ .ok then some (noDst dst)
    else
      (createFnode chip dst.pool fNodeSize a.node locals.node).bind fun node =>
        if node.code ≠ .ok then dropDst node.pool dst.bo []
        else if a.submit = false then
          (node.pool.destroyBo node.bo).bind fun gone => dropDst gone.pool dst.bo [.submit false]
        else if a.wait = false then
          (node.pool.destroyBo node.bo).bind fun gone => dropDst gone.pool dst.bo [.submit true, .wait]
        else
          (node.pool.destroyBo node.bo).map fun gone =>
            ⟨true, dst.bo, false, gone.pool, [.submit true, .wait]⟩

/-- `iaic_perspective`, which keeps its node buffer when it succeeds. -/
def perspective (dstW dstH : Nat) (format : ImgFormat) : Option ImgResult :=
  let dstFormat := if format = .nv12 then .bgra else format
  (pool.createBo (dstFormat.imgSize dstW dstH) a.dst locals.dst).bind fun dst =>
    if dst.code ≠ .ok then some (noDst dst)
    else
      (createPnode chip dst.pool pNodeSize a.node locals.node).bind fun node =>
        if node.code ≠ .ok then dropDst node.pool dst.bo []
        else if a.submit = false then
          (node.pool.destroyBo node.bo).bind fun gone => dropDst gone.pool dst.bo [.submit false]
        else if a.wait = false then
          (node.pool.destroyBo node.bo).bind fun gone => dropDst gone.pool dst.bo [.submit true, .wait]
        else some ⟨true, dst.bo, false, node.pool, [.submit true, .wait]⟩

end Pool

end Aip
